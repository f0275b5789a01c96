import Mathlib.Algebra.Group.Nat.Defs
import UnixV7.Kernel.Sbreak
import UnixV7.Library.Bytes
import UnixV7.Library.Fuel

/-!
# Arguments of exec

`exece` of `sys1.c`. The strings of the argument list and of the environment list are collected in
pages of core, one behind the other, before the memory of the process is given up. When the new
memory is there they are copied to its top, below them the words that point to them, and below
those the number of the arguments.
-/

namespace UnixV7.Exec

open Ureg Space

def NCARGS : ℕ := 5120

def SSIZE : ℕ := 1

def NBPW : ℕ := 4

def PGSIZE : ℕ := 4096

def PGSHIFT : ℕ := 12

/-- The pages of core that the strings are collected in. -/
def NARGPG : ℕ := (NCARGS + PGSIZE - 1) / PGSIZE

def E2BIG : ℕ := 7

def ENOMEM : ℕ := 12

def EACCES : ℕ := 13

def EFAULT : ℕ := 14

/-- Why there is no result: `u_error` has been set, or a loop has not ended yet. -/
inductive Failure
  | errno (u_error : ℕ)
  | fuel

/-! ## The memory of a process -/

/-- The bytes of a process by their addresses, which of them it may read and write, and how often
each has been written. -/
structure User where
  byte : Bytes
  readable : ℕ → Bool
  writable : ℕ → Bool
  times : ℕ → ℕ
  below : ∀ a, readable a = true → a < USRSIZE

namespace User

/-- `fubyte`: a byte, or -1 for an address that cannot be read. -/
def fubyte (m : User) (a : ℕ) : ℤ := if m.readable a then (m.byte a).toNat else -1

/-- `fuword`: a word, the least significant byte first, or -1. -/
def fuword (m : User) (a : ℕ) : ℕ :=
  if m.readable a ∧ m.readable (a + 1) ∧ m.readable (a + 2) ∧ m.readable (a + 3) then
    (m.byte a).toNat + 256 * (m.byte (a + 1)).toNat + 65536 * (m.byte (a + 2)).toNat +
      16777216 * (m.byte (a + 3)).toNat
  else
    2 ^ 32 - 1

/-- A store of `n` bytes, which is left out if one of them cannot be written. -/
def store (m : User) (a n : ℕ) (source : ℕ → UInt8) : User :=
  if ∀ i < n, m.writable (a + i) then
    { m with
      byte := m.byte.splice a n source
      times := fun x => m.times x + if a ≤ x ∧ x < a + n then 1 else 0 }
  else
    m

/-- `subyte`, whose answer nobody looks at. -/
def subyte (m : User) (a : ℕ) (c : UInt8) : User := m.store a 1 fun _ => c

/-- `suword` -/
def suword (m : User) (a v : ℕ) : User := m.store a NBPW fun i => UInt8.ofNat (v / 256 ^ i)

end User

/-! ## Collecting the strings -/

/-- The pages for the strings, which `pgalloc` has handed out one after the other. -/
structure Pages where
  pg : ℕ → Pg
  distinct : ∀ i < NARGPG, ∀ j < NARGPG, pg i = pg j → i = j

/-- `ARGC(n)` -/
def argc (p : Pages) (core : Pg → Bytes) (n : ℕ) : UInt8 :=
  core (p.pg (n >>> PGSHIFT)) (n &&& (PGSIZE - 1))

/-- `ARGC(n) = c` -/
def setArgc (p : Pages) (core : Pg → Bytes) (n : ℕ) (c : UInt8) : Pg → Bytes :=
  Function.update core (p.pg (n >>> PGSHIFT))
    (Function.update (core (p.pg (n >>> PGSHIFT))) (n &&& (PGSIZE - 1)) c)

/-- The two lists that are left, the numbers of strings and of environment strings, the number of
their bytes, and the pages of core. -/
structure Args where
  argp : ℕ
  envp : ℕ
  na : ℕ
  ne : ℕ
  nc : ℕ
  core : Pg → Bytes

/-- The loop over the bytes of the string at `ap`. -/
def Args.string (p : Pages) (m : User) : ℕ → ℕ → ℕ → Args → Except Failure Args
  | 0, _, _, _ => .error .fuel
  | fuel + 1, u_error, ap, s =>
      let u_error := if NCARGS - 1 ≤ s.nc then E2BIG else u_error
      let c := m.fubyte ap
      let u_error := if c < 0 then EFAULT else u_error
      if u_error ≠ 0 then
        .error (.errno u_error)
      else
        let s := { s with core := setArgc p s.core s.nc (UInt8.ofNat c.toNat), nc := s.nc + 1 }
        if 0 < c then string p m fuel u_error ((ap + 1) % 2 ^ 32) s else .ok s

/-- The next pointer: of the argument list, and from its end on of the environment list; 0 at the
end of both. -/
def Args.next (m : User) (s : Args) : ℕ × Args :=
  let (ap, s) :=
    if s.argp ≠ 0 then
      (m.fuword s.argp, { s with argp := (s.argp + NBPW) % 2 ^ 32 })
    else
      (0, s)
  if ap = 0 ∧ s.envp ≠ 0 then
    let s := { s with argp := 0 }
    let ap := m.fuword s.envp
    if ap = 0 then (0, s) else (ap, { s with envp := (s.envp + NBPW) % 2 ^ 32, ne := s.ne + 1 })
  else
    (ap, s)

/-- The loop that collects the strings. -/
def Args.collect (p : Pages) (m : User) : ℕ → Args → Except Failure Args
  | 0, _ => .error .fuel
  | fuel + 1, s =>
      let (ap, s) := s.next m
      if ap = 0 then
        .ok s
      else do
        let s ← { s with na := s.na + 1 }.string p m fuel
          (if ap = 2 ^ 32 - 1 then EFAULT else 0) ap
        collect p m fuel s

/-! ## The new memory -/

/-- Address `a` lies within the `n` pages from page `start` on. -/
def inPages (start n a : ℕ) : Bool := decide (start ≤ a / PGSIZE) && decide (a / PGSIZE < start + n)

/-- The file: what `access` and `i_mode` say, what the program headers come to (the first pages and
the numbers of pages of text and data, or `u_error`), whether `roomfor` finds room for them, and
what is read into the memory, unless it cannot be read. -/
structure File where
  access : ℕ
  i_mode : ℕ
  segments : Except ℕ (ℕ × ℕ × ℕ × ℕ)
  room : Bool
  again : Bool
  contents : Except ℕ Bytes

theorem image_below {maxmem t0 ts d0 ds ss a : ℕ} (fit : fits maxmem t0 ts d0 ds ss = true)
    (readable : (inPages t0 ts a || inPages d0 ds a || inPages (top - ss) ss a ||
      inPages tr 1 a) = true) : a < USRSIZE := by
  simp only [fits, Bool.and_eq_true, Bool.not_eq_true', Bool.or_eq_false_iff,
    decide_eq_false_iff_not, Bool.not_eq_false', Nat.not_lt] at fit
  obtain ⟨⟨⟨⟨⟨⟨text, start⟩, pages⟩, data⟩, stack⟩, -⟩, -⟩ := fit
  simp only [Bool.or_eq_true, inPages, Bool.and_eq_true, decide_eq_true_eq] at readable
  simp only [top, tr, PGSIZE] at text start pages data stack readable
  simp only [USRSIZE]
  omega

/-- The memory with text, data and a stack of zeros. -/
def image (contents : Bytes) {maxmem t0 ts d0 ds ss : ℕ}
    (fit : fits maxmem t0 ts d0 ds ss = true) : User where
  byte a := if inPages (top - ss) ss a then 0 else contents a
  readable a := inPages t0 ts a || inPages d0 ds a || inPages (top - ss) ss a || inPages tr 1 a
  writable a := inPages d0 ds a || inPages (top - ss) ss a
  times _ := 0
  below _ := image_below fit

/-- `getxfile`, with `nargc` bytes for the arguments. -/
def getxfile (maxmem : ℕ) (ip : File) (nargc : ℕ) : Except Failure User :=
  match ip.segments with
  | .error u_error => .error (.errno u_error)
  | .ok (t0, ts, d0, ds) =>
      let ss := SSIZE + btop nargc
      if ip.room = false then
        .error (.errno ENOMEM)
      else if fit : fits maxmem t0 ts d0 ds ss = true then
        if ip.again = false then
          .error (.errno ENOMEM)
        else
          match ip.contents with
          | .error u_error => .error (.errno u_error)
          | .ok contents => .ok (image contents fit)
      else
        .error (.errno ENOMEM)

/-! ## Copying them back -/

/-- Where the next word and the next byte go, the next byte of the strings, and the new memory. -/
structure Top where
  ap : ℕ
  ucp : ℕ
  nc : ℕ
  user : User

namespace Top

/-- The loop over the bytes of a string. -/
def string (p : Pages) (core : Pg → Bytes) : ℕ → Top → Except Failure Top
  | 0, _ => .error .fuel
  | fuel + 1, s =>
      let c := argc p core s.nc
      let s := { s with user := s.user.subyte s.ucp c, ucp := s.ucp + 1, nc := s.nc + 1 }
      if c ≠ 0 then string p core fuel s else .ok s

/-- The next word, behind the 0 that ends the argument list if that is due. -/
def step (na ne : ℕ) (s : Top) : Top :=
  let s := { s with ap := s.ap + NBPW }
  if na = ne then { s with user := s.user.suword s.ap 0, ap := s.ap + NBPW } else s

/-- The loop over the strings, of which `na` are left. -/
def copyback (p : Pages) (core : Pg → Bytes) (ne fuel : ℕ) : ℕ → Top → Except Failure Top
  | 0, s => .ok (s.step 0 ne)
  | na + 1, s => do
      let s := s.step (na + 1) ne
      let s ← { s with user := s.user.suword s.ap s.ucp }.string p core fuel
      copyback p core ne fuel na s

end Top

/-! ## The call -/

def IFMT : ℕ := 0o170000

def IFREG : ℕ := 0o100000

/-- What `exece` is called with: the lists, the file that `namei` finds or its `u_error`, the free
pages, those that it is given with what they hold, and the memory of the process. -/
structure Call where
  argp : ℕ
  envp : ℕ
  file : Except ℕ File
  npgfree : ℕ
  pages : Pages
  core : Pg → Bytes
  user : User

/-- The stack pointer and the memory that the program begins with. -/
structure Result where
  sp : ℕ
  user : User

/-- `exece` from the place on where the strings have been collected. -/
def Args.copyout (p : Pages) (maxmem : ℕ) (ip : File) (fuel : ℕ) (s : Args) :
    Except Failure Result := do
  let nc := (s.nc + NBPW - 1) / NBPW * NBPW
  let user ← getxfile maxmem ip (nc + (s.na + 3) * NBPW)
  let ucp := USRSIZE - nc - NBPW
  let ap := (ucp - s.na * NBPW - 3 * NBPW) / 8 * 8
  let t ← Top.copyback p s.core s.ne fuel s.na ⟨ap, ucp, 0, user.suword ap (s.na - s.ne)⟩
  .ok ⟨ap, (t.user.suword t.ap 0).suword t.ucp 0⟩

/-- `exece` -/
def exece (maxmem : ℕ) (call : Call) (fuel : ℕ) : Except Failure Result :=
  match call.file with
  | .error u_error => .error (.errno u_error)
  | .ok ip =>
      if ip.access ≠ 0 then
        .error (.errno ip.access)
      else if ip.i_mode &&& IFMT ≠ IFREG ∨ ip.i_mode &&& 0o111 = 0 then
        .error (.errno EACCES)
      else if call.npgfree < NARGPG then
        .error (.errno ENOMEM)
      else do
        let s : Args := ⟨call.argp, call.envp, 0, 0, 0, call.core⟩
        let s ← if call.argp ≠ 0 then s.collect call.pages call.user fuel else .ok s
        s.copyout call.pages maxmem ip fuel

end UnixV7.Exec
