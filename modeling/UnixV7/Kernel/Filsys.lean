import Mathlib.Tactic.Common

/-!
# The superblock

The fields of `struct filsys` which the kernel's operations use, and the names and constants
that the modules about a mounted device share.
-/

namespace UnixV7

/-- A device number. -/
abbrev Dev := ℕ

/-- A disk address, the number of a block on its device. -/
abbrev Daddr := ℕ

/-- An index into the table of in-core inodes. -/
abbrev InodeId := ℕ

/-- A number of an inode on its device. -/
abbrev Ino := ℕ

/-- A block buffer. -/
abbrev BufId := ℕ

/-- The values of `u_error` which the modelled calls set. -/
inductive Errno
  | ENOENT | EIO | ENXIO | EACCES | EFAULT | EBUSY | ENOTDIR | EINVAL | ENFILE | ETXTBSY | EFBIG
  | ENOSPC | EROFS
  deriving DecidableEq

/-- The number of addresses in `s_free`. -/
def NICFREE : ℕ := 50

/-- The number of inodes in `s_inode`. -/
def NICINOD : ℕ := 100

/-- The number of mountable file systems. -/
def NMOUNT : ℕ := 8

/-- The block number of the superblock. -/
def SUPERB : Daddr := 1

/-- The bits of `i_mode` for the type of a file, and its values. -/
def IFMT : ℕ := 0o170000

def IFDIR : ℕ := 0o40000

def IFCHR : ℕ := 0o20000

def IFBLK : ℕ := 0o60000

def IFREG : ℕ := 0o100000

def IFMPC : ℕ := 0o30000

def IFMPB : ℕ := 0o70000

/-- The in-core superblock. -/
structure Filsys where
  s_isize : ℕ
  s_fsize : ℕ
  s_nfree : ℕ
  s_free : ℕ → Daddr
  s_ninode : ℕ
  s_inode : ℕ → Ino
  s_flock : ℕ
  s_ilock : ℕ
  s_fmod : ℕ
  s_ronly : ℕ

end UnixV7
