import UnixV7.Kernel.IgetLocks
import UnixV7.Kernel.Nami

/-!
# What looking up a name leaves locked

At any time a lookup holds the lock of one inode at most, with one reference to it, and the
buffers it reads from. Whether it returns an inode, leaves a directory for a new name or fails,
it gives up everything else, unless `bmap` fails in a directory that is then found not to have
the name.
-/

namespace UnixV7.Nami

open Function

/-- The directories from which a name may start. -/
def Sys.homes (env : Env) (s : Sys) : List InodeId := [s.u.u_cdir, s.u.u_rdir.getD env.rootdir]

/-- The state in which a call looks up a name. -/
structure Ready (env : Env) (s : Sys) : Prop where
  rest : s.rest = s.kernel.amount
  log : s.log = []
  idle : s.kernel.Idle
  plain : s.kernel.Plain
  home : ∀ ip ∈ s.homes env, s.kernel.Home ip

section Routines

variable {env : Env} {homes : List InodeId} {before : Item → ℤ} {d : Hand} {s : Sys}
  {P Q : User → List Event → Prop} {bufs : List (Dev × ℤ)} {ip dp : InodeId} {dev : Dev}

/-- The inode is where its name leads to, and has the name. -/
def Named (dp : InodeId) (dev : Dev) (ino : Ino) (s : Sys) : Prop :=
  s.kernel.Home dp ∧ (s.kernel.inode dp).i_dev = dev ∧ (s.kernel.inode dp).i_number = ino

theorem named_setInode {ino : Ino} {change : Inode → Inode} (named : Named dp dev ino s)
    (device : ∀ i, (change i).i_dev = i.i_dev) (number : ∀ i, (change i).i_number = i.i_number)
    (mounted : ∀ i, (change i).mounted = i.mounted) :
    Named dp dev ino { s with kernel := s.kernel.setInode ip change } := by
  have devices : ∀ other, ((s.kernel.setInode ip change).inode other).i_dev =
      (s.kernel.inode other).i_dev := by
    intro other
    by_cases here : other = ip
    · rw [here, inode_setInode_self, device]
    · rw [inode_setInode_of_ne _ _ here]
  have numbers : ∀ other, ((s.kernel.setInode ip change).inode other).i_number =
      (s.kernel.inode other).i_number := by
    intro other
    by_cases here : other = ip
    · rw [here, inode_setInode_self, number]
    · rw [inode_setInode_of_ne _ _ here]
  have mounts : ((s.kernel.setInode ip change).inode dp).mounted =
      (s.kernel.inode dp).mounted := by
    by_cases here : dp = ip
    · rw [here, inode_setInode_self, mounted]
    · rw [inode_setInode_of_ne _ _ here]
  simpa only [Named, Kernel.Home, Kernel.lookup, devices, numbers, mounts] using named

theorem named_wait {ino : Ino} (polite : env.Polite homes) (mem : dp ∈ homes)
    (named : Named dp dev ino s) : Named dp dev ino (s.wait env) := by
  obtain ⟨home, rfl, rfl⟩ := named
  exact polite.home _ _ _ dp mem home

/-- The directory from which a lookup starts is found in core. -/
theorem iget_home (polite : env.Polite homes) (mem : dp ∈ homes) (n : ℕ) {ino : Ino} :
    Triple (fun s => At env before (.free bufs) P s ∧ Named dp dev ino s) (iget env n dev ino)
      fun _ => At env before (.holding dp bufs) P := by
  induction n with
  | zero => exact Triple.failure
  | succ n ih =>
      refine Triple.bind (Q := fun s t => t = s ∧ At env before (.free bufs) P t ∧
        Named dp dev ino t) (Triple.get fun _ start => ⟨rfl, start⟩) fun s => ?_
      refine Triple.assume (Named dp dev ino s) ?_ fun named => ?_
      · rintro _ ⟨rfl, -, named⟩
        exact named
      obtain ⟨⟨found, unmounted⟩, device, number⟩ := named
      rw [device, number] at found
      simp only [found]
      apply Triple.ite
      · intro _
        refine Triple.bind
          (Q := fun _ s => At env before (.free bufs) P s ∧ Named dp dev ino s) ?_ fun _ =>
            Triple.bind (Triple.modify _ ?_) fun _ => ih
        · refine Triple.modify _ ?_
          rintro _ ⟨-, ⟨fine, holds⟩, named⟩
          refine ⟨⟨fine.setInode (fine.keep rfl rfl rfl rfl), holds⟩, ?_⟩
          exact named_setInode named (fun _ => rfl) (fun _ => rfl) fun _ => rfl
        · rintro s ⟨⟨fine, holds⟩, named⟩
          exact ⟨⟨fine.wait polite, holds⟩, named_wait polite mem named⟩
      · intro unlocked
        rw [if_neg (by simp [unmounted])]
        refine Triple.bind (Q := fun _ => At env before (.holding dp bufs) P) ?_ fun _ =>
          Triple.pure (some dp) fun _ => id
        refine Triple.modify _ ?_
        rintro s' ⟨rfl, ⟨fine, holds⟩, -⟩
        refine ⟨fine.setInode ?_, holds⟩
        exact Moves.claim (by simpa using unlocked) rfl rfl (fine.plain dp)

/-- What is true of the log does not depend on the user structure. -/
theorem setUser_log {R : List Event → Prop} (change : User → User) :
    Triple (At env before d fun _ log => R log) (setUser change) fun _ =>
      At env before d fun _ log => R log :=
  setUser_spec change fun _ _ => id

theorem call_spec (func : Func) {R : List Event → Prop} :
    Triple (At env before d fun _ log => R log) (func.call env) fun _ =>
      At env before d fun _ log => R log := by
  cases func with
  | schar =>
      refine get_spec.bind fun s => Triple.bind
        ((setUser_log _).strengthen fun _ => And.right) fun _ => ?_
      exact Triple.pure _ fun _ => id
  | uchar =>
      refine get_spec.bind fun s => Triple.bind
        ((setUser_log _).strengthen fun _ => And.right) fun _ => ?_
      cases env.name s.u.u_dirp with
      | some c => exact Triple.pure _ fun _ => id
      | none => exact (setUser_log _).bind fun _ => Triple.pure _ fun _ => id

theorem gather_spec (func : Func) {R : List Event → Prop} (n : ℕ) (c : ℤ) (name : List UInt8) :
    Triple (At env before d fun _ log => R log) (gather env func n c name) fun _ =>
      At env before d fun _ log => R log := by
  induction n generalizing c name with
  | zero => exact Triple.failure
  | succ n ih =>
      refine get_spec.bind fun s => Triple.ite ?_ ?_
      · exact fun _ => ((call_spec func).strengthen fun _ => And.right).bind fun _ => ih _ _
      · exact fun _ => Triple.pure _ fun _ => And.right

theorem slashes_spec (func : Func) {R : List Event → Prop} (n : ℕ) (c : ℤ) :
    Triple (At env before d fun _ log => R log) (slashes env func n c) fun _ =>
      At env before d fun _ log => R log := by
  induction n generalizing c with
  | zero => exact Triple.failure
  | succ n ih =>
      apply Triple.ite
      · exact fun _ => (call_spec func).bind fun _ => ih _
      · exact fun _ => Triple.pure _ fun _ => id

theorem component_spec (func : Func) {R : List Event → Prop} (c : ℤ) :
    Triple (At env before d fun _ log => R log) (component env func c) fun _ =>
      At env before d fun _ log => R log := by
  refine (gather_spec func _ _ _).bind fun gathered => ?_
  refine Triple.bind (Q := fun _ => At env before d fun _ log => R log) ?_ fun _ =>
    slashes_spec func _ _
  exact setUser_log _

theorem forbidden_spec (error : ∀ u log e, P u log → Q { u with u_error := some e } log)
    (mode : ℕ) :
    Triple (At env before d P) (forbidden ip mode) fun refused =>
      At env before d fun u log => if refused then Q u log else P u log := by
  refine get_spec.bind fun s => Triple.strengthen (P := At env before d P) ?_ fun _ => And.right
  apply Triple.ite
  · exact fun _ => Triple.pure false fun _ => id
  · intro _
    apply Triple.ite
    · exact fun _ => Triple.pure false fun _ => id
    · exact fun _ => (setError_spec fun u log => error u log .EACCES).bind fun _ =>
        Triple.pure true fun _ => id

/-- A directory that is held. -/
abbrev Hand.inDir (dp : InodeId) (bufs : List (Dev × ℤ)) : Hand :=
  ⟨some dp, some dp, bufs, true, false⟩

theorem Fine.text (fine : Fine env before (.inDir dp bufs) s) :
    (s.kernel.inode dp).text = false :=
  fine.plain dp (fine.dir rfl dp rfl)

/-- The text of a directory is never given up, since it has none. -/
theorem unwritable_spec (error : ∀ u log e, P u log → Q { u with u_error := some e } log) :
    Triple (At env before (.inDir dp bufs) P) (unwritable env dp) fun refused =>
      At env before (.inDir dp bufs) fun u log => if refused then Q u log else P u log := by
  refine get_spec.bind fun s => ?_
  refine Triple.assume ((s.kernel.inode dp).text = false) ?_ fun text => ?_
  · rintro _ ⟨rfl, fine, -⟩
    exact fine.text
  refine Triple.strengthen (P := At env before (.inDir dp bufs) P) ?_ fun _ => And.right
  refine getfs_spec.bind fun fs => Triple.ite ?_ ?_
  · exact fun _ => (setError_spec fun u log => error u log .EROFS).bind fun _ =>
      Triple.pure true fun _ => id
  · intro _
    refine Triple.bind (Q := fun _ => At env before (.inDir dp bufs) P) ?_ fun _ => ?_
    · refine whenever_spec fun wrong => ?_
      rw [text] at wrong
      cases wrong
    · refine get_spec.bind fun t => ?_
      refine Triple.assume ((t.kernel.inode dp).text = false) ?_ fun text => ?_
      · rintro _ ⟨rfl, fine, -⟩
        exact fine.text
      rw [if_neg (by simp [text])]
      exact Triple.pure false fun _ => And.right

theorem access_spec
    (error : ∀ u log e, P u log → Q { u with u_error := some e } log) (mode : ℕ) :
    Triple (At env before (.inDir dp bufs) P) (access env dp mode) fun refused =>
      At env before (.inDir dp bufs) fun u log => if refused then Q u log else P u log := by
  apply Triple.ite
  · intro _
    refine (unwritable_spec error).bind fun refused => ?_
    cases refused with
    | true => exact Triple.pure true fun _ => id
    | false => exact forbidden_spec error mode
  · exact fun _ => forbidden_spec error mode

theorem descend_spec (polite : env.Polite homes) (steady : Steady P) (bn levels sh : ℕ)
    (nb : Daddr) :
    Triple (At env before d P) (descend env dev bn levels sh nb) fun _ => At env before d P := by
  induction levels generalizing sh nb with
  | zero => exact Triple.pure _ fun _ => id
  | succ levels ih =>
      refine (bread_spec (Q := P) polite steady).bind fun bp => ?_
      cases bp with
      | none => exact (brelse_spec (P := P)).bind fun _ => Triple.pure _ fun _ => id
      | some bap =>
          refine (brelse_spec (P := P)).bind fun _ => Triple.ite ?_ ?_
          · exact fun _ => Triple.pure _ fun _ => id
          · exact fun _ => ih _ _

theorem bmap_spec (polite : env.Polite homes) (steady : Steady P) (bn : ℕ) :
    Triple (At env before d P) (bmap env ip bn) fun _ => At env before d P := by
  refine get_spec.bind fun s => Triple.strengthen (P := At env before d P) ?_ fun _ => And.right
  apply Triple.ite
  · exact fun _ => Triple.ite (fun _ => Triple.pure _ fun _ => id) fun _ => Triple.pure _
      fun _ => id
  · intro _
    cases bmapLevel 3 0 1 (bn - (NADDR - 3)) with
    | none => exact (setError_spec fun u log => steady u log .EFBIG).bind fun _ =>
        Triple.pure _ fun _ => id
    | some level =>
        apply Triple.ite
        · exact fun _ => Triple.pure _ fun _ => id
        · exact fun _ => descend_spec polite steady _ _ _ _

/-- `plock` of an inode to which a reference has just been added. -/
theorem enter_spec (polite : env.Polite homes) :
    Triple (At env before (.free bufs) P) (enter env ip) fun _ =>
      At env before (.holding ip bufs) P := by
  refine Triple.bind (Q := fun _ => At env before (.noLock (some ip) bufs) P) ?_ fun _ =>
    (plock_spec polite _).weaken fun _ => ?_
  · refine Triple.modify _ fun s ⟨fine, holds⟩ => ⟨fine.setInode ?_, holds⟩
    exact
      { bufs := rfl
        lock := rfl
        count := by simp [Hand.charge, Hand.free]
        lock_other := fun _ _ => Iff.rfl
        ref_other := fun other ne => by simp [Hand.free, ne.symm]
        locked := fun held => by cases held
        counted := fun _ => Nat.le_add_left ..
        dir := fun known => by cases known
        bare := fun known => by cases known
        idle := fun none => by cases none
        plain := fine.plain ip }
  · rintro _ ⟨s, ⟨fine, holds⟩, unlocked, rfl⟩
    exact ⟨fine.setInode (fine.lock unlocked rfl rfl rfl rfl), holds⟩

/-- The name has not been found missing. -/
def Quiet (log : List Event) : Prop := ∀ more, log ≠ .vacant :: more

/-- There is an error. -/
def Failed (u : User) (log : List Event) : Prop := u.u_error.isSome ∧ Quiet log

/-- There is an error exactly if `bmap` has set it for the last block of the directory read. -/
def Told (u : User) (log : List Event) : Prop :=
  Quiet log ∧ (u.u_error.isSome ↔ ∃ more, log = .unmapped :: more)

/-- The blocks of the buffers in hand. -/
def held (bp : Option Buffer) : List (Dev × ℤ) := bp.toList.map fun b => (b.dev, b.blkno)

/-- A directory is being read: no block has been read before the first. -/
def Reading (bp : Option Buffer) (u : User) (log : List Event) : Prop :=
  Told u log ∧ (bp = none → u.u_offset = 0)

theorem Told.failed {u : User} {log : List Event} (told : Told u log) (e : Errno) :
    Failed { u with u_error := some e } log := ⟨rfl, told.1⟩

theorem failed_steady : Steady Failed := fun _ _ _ ⟨_, quiet⟩ => ⟨rfl, quiet⟩

theorem release_spec (bp : Option Buffer) :
    Triple (At env before (.inDir dp (held bp)) P) (release bp) fun _ =>
      At env before (.inDir dp []) P := by
  cases bp with
  | none => exact Triple.pure _ fun _ => id
  | some bp => exact brelse_spec (d := .inDir dp [])

/-- What `bmap` does is noted if it leaves an error. -/
theorem noted_spec (t : Sys) :
    Triple (fun s => s = t ∧ At env before d (fun u log => Told u log ∨ Failed u log) s)
      (whenever t.u.u_error.isSome (note .unmapped)) fun _ => At env before d Told := by
  apply Triple.ite
  · intro failed
    refine Triple.modify _ ?_
    rintro _ ⟨rfl, fine, holds⟩
    refine ⟨{ fine with }, fun more same => ?_, ?_⟩
    · cases same
    · exact ⟨fun _ => ⟨_, rfl⟩, fun _ => failed⟩
  · intro fails
    refine Triple.pure _ ?_
    rintro _ ⟨rfl, fine, told | failed⟩
    · exact ⟨fine, told⟩
    · exact absurd failed.1 fails

theorem nextBlock_spec (polite : env.Polite homes) (bp : Option Buffer) :
    Triple (At env before (.inDir dp (held bp)) (Reading bp)) (nextBlock env dp bp) fun bp =>
      At env before (.inDir dp (held bp)) fun u log =>
        if bp.isSome then Told u log else Failed u log := by
  refine get_spec.bind fun s => Triple.ite ?_ ?_
  · intro _
    refine Triple.strengthen (P := At env before (.inDir dp (held bp)) Told) ?_ ?_
    · refine (release_spec bp).bind fun _ => ?_
      refine Triple.bind (Q := fun _ => At env before (.inDir dp []) fun u log =>
        Told u log ∨ Failed u log) ?_ fun blkno => ?_
      · refine (bmap_spec polite ?_ _).strengthen fun s ⟨fine, told⟩ => ⟨fine, .inl told⟩
        rintro u log e (told | failed)
        · exact .inr (told.failed e)
        · exact .inr (failed_steady u log e failed)
      · refine get_spec.bind fun t => (noted_spec t).bind fun _ => ?_
        refine (bread_spec (Q := Failed) polite fun u log e told => told.failed e).bind
          fun data => ?_
        cases data with
        | none =>
            refine (brelse_spec (d := .inDir dp []) (P := Failed)).bind fun _ => ?_
            exact Triple.pure none fun _ => id
        | some data => exact Triple.pure (some _) fun _ => id
    · rintro _ ⟨-, fine, reading⟩
      exact ⟨fine, reading.1⟩
  · intro inside
    refine Triple.pure bp ?_
    rintro _ ⟨rfl, fine, told, start⟩
    refine ⟨fine, ?_⟩
    cases bp with
    | none =>
        refine absurd ?_ inside
        rw [start rfl]
        rfl
    | some bp => exact told

/-- How the search of a directory leaves it. -/
def Searched (env : Env) (before : Item → ℤ) (dp : InodeId) (result : Search) (s : Sys) : Prop :=
  At env before (.inDir dp [])
    (match result with
      | .absent _ => Told
      | .failed => Failed
      | .found => fun _ log => Quiet log) s

theorem eloop_spec (polite : env.Polite homes) (n eo : ℕ) (bp : Option Buffer) :
    Triple (At env before (.inDir dp (held bp)) (Reading bp)) (eloop env dp n eo bp)
      (Searched env before dp) := by
  induction n generalizing eo bp with
  | zero => exact Triple.failure
  | succ n ih =>
      refine get_spec.bind fun s => ?_
      refine Triple.strengthen (P := At env before (.inDir dp (held bp)) (Reading bp)) ?_
        fun _ => And.right
      apply Triple.ite
      · intro _
        refine (release_spec bp).bind fun _ => Triple.pure (Search.absent eo) ?_
        exact fun s ⟨fine, reading⟩ => ⟨fine, reading.1⟩
      · intro _
        refine (nextBlock_spec polite bp).bind fun bp => ?_
        cases bp with
        | none => exact Triple.pure Search.failed fun _ => id
        | some bp =>
            have copied : Triple (At env before (.inDir dp (held (some bp))) Told)
                (setUser fun u => { u with
                  u_dent := entryAt bp.data (s.u.u_offset &&& BMASK)
                  u_offset := u.u_offset + direct })
                fun _ => At env before (.inDir dp (held (some bp))) (Reading (some bp)) :=
              setUser_spec _ fun u log told => ⟨told, fun none => by cases none⟩
            refine Triple.bind copied fun _ => Triple.ite (fun _ => ih _ _) fun _ =>
              Triple.ite (fun _ => ih _ _) fun _ => ?_
            refine (release_spec (some bp)).bind fun _ => Triple.pure Search.found ?_
            exact fun s ⟨fine, reading⟩ => ⟨fine, reading.1.1⟩

/-- The bits for executing a file are not those for writing it. -/
theorem access_exec (ip : InodeId) : access env ip IEXEC = forbidden ip IEXEC :=
  if_neg (by decide)

theorem search_spec (polite : env.Polite homes) :
    Triple (At env before (.holding dp []) fun _ log => Quiet log) (search env dp) fun result s =>
      match result with
      | none => At env before (.holding dp []) Failed s
      | some result => Searched env before dp result s := by
  refine get_spec.bind fun s => ?_
  rw [access_exec]
  cases dir : (s.kernel.inode dp).isDir with
  | true =>
      refine Triple.strengthen (P := At env before (.inDir dp []) fun _ log => Quiet log) ?_ ?_
      · refine Triple.bind (Q := fun _ => At env before (.inDir dp []) fun _ log => Quiet log)
          (Triple.pure () fun _ => id) fun _ => ?_
        refine Triple.bind (Q := fun _ => At env before (.inDir dp []) fun _ log => Quiet log)
          ((forbidden_spec (Q := fun _ log => Quiet log) (fun _ _ _ => id) _).weaken ?_) fun _ => ?_
        · intro refused s start
          simpa using start
        refine get_spec.bind fun t => Triple.ite ?_ ?_
        · intro failed
          refine Triple.pure none ?_
          rintro _ ⟨rfl, start⟩
          obtain ⟨fine, quiet⟩ := start.forget
          exact ⟨fine, failed, quiet⟩
        · intro calm
          refine Triple.bind (Q := fun _ => At env before (.inDir dp []) Told) ?_ fun _ => ?_
          · refine Triple.modify _ ?_
            rintro _ ⟨rfl, fine, -⟩
            refine ⟨{ fine with }, ⟨fun more same => ?_, fun failed => absurd failed calm, ?_⟩⟩
            · cases same
            · rintro ⟨more, same⟩
              cases same
          · refine Triple.bind (Q := fun _ => At env before (.inDir dp []) (Reading none)) ?_
              fun _ => (eloop_spec polite _ _ none).bind fun result =>
                Triple.pure (some result) fun _ => id
            exact setUser_spec _ fun u log told => ⟨told, fun _ => rfl⟩
      · rintro _ ⟨rfl, fine, holds⟩
        refine ⟨{ fine with dir := fun _ ip same => ?_ }, holds⟩
        obtain rfl : dp = ip := Option.some.inj same
        exact dir
  | false =>
      refine Triple.strengthen (P := At env before (.holding dp []) fun _ log => Quiet log) ?_
        fun _ => And.right
      refine Triple.bind (setError_spec (Q := Failed) fun u log quiet => ⟨rfl, quiet⟩) fun _ => ?_
      refine Triple.bind (Q := fun _ => At env before (.holding dp []) Failed)
        ((forbidden_spec (Q := Failed) failed_steady _).weaken ?_) fun _ => ?_
      · intro refused s start
        simpa using start
      refine get_spec.bind fun t => ?_
      refine Triple.assume (t.u.u_error.isSome) ?_ fun failed => ?_
      · rintro _ ⟨rfl, -, failed⟩
        exact failed.1
      rw [if_pos failed]
      exact Triple.pure none fun _ => And.right

/-- The name is missing from a directory that is left in `u_pdir`. -/
def Vacated (dp : InodeId) (u : User) (log : List Event) : Prop :=
  u.u_pdir = some dp ∧ ∃ more, log = .vacant :: more ∧
    (u.u_error.isSome ↔ ∃ rest, more = .unmapped :: rest)

/-- What `namei` leaves: it returns an inode and holds it, or it returns nothing, with an error
and nothing in hand or with the directory for a new name. -/
def Ended (env : Env) (before : Item → ℤ) (flag : ℕ) (result : Option InodeId) (s : Sys) : Prop :=
  match result with
  | some ip => At env before (.holding ip []) (fun _ log => Quiet log) s
  | none => At env before (.free []) Failed s ∨
      flag = 1 ∧ ∃ dp, At env before (.holding dp []) (Vacated dp) s

theorem out_spec (polite : env.Polite homes) (flag : ℕ) {dir bare : Bool} :
    Triple (At env before ⟨some dp, some dp, [], dir, bare⟩ Failed) (out env dp)
      (Ended env before flag) := by
  refine (iput_spec polite failed_steady).bind fun _ => Triple.pure none ?_
  exact fun s start => .inl start

theorem absent_spec (polite : env.Polite homes) (flag : ℕ) (c : ℤ) (eo : ℕ) :
    Triple (At env before (.inDir dp []) Told) (absent env flag dp c eo)
      (Ended env before flag) := by
  apply Triple.ite
  · intro creating
    refine (access_spec (Q := Failed) (fun u log e told => told.failed e) _).bind fun refused => ?_
    cases refused with
    | true => exact out_spec polite flag
    | false =>
        refine Triple.bind (note_spec .vacant (P := Told) (Q := fun u log =>
          ∃ more, log = .vacant :: more ∧ (u.u_error.isSome ↔ ∃ rest, more = .unmapped :: rest))
          fun u log told => ⟨log, rfl, told.2⟩) fun _ => ?_
        refine Triple.bind (setUser_spec (Q := Vacated dp) _ fun u log vacant => ⟨rfl, vacant⟩)
          fun _ => ?_
        refine Triple.bind (whenever_spec fun _ => setUser_spec _ fun u log vacant => vacant)
          fun _ => Triple.bind (whenever_spec fun _ => ?_) fun _ => Triple.pure none ?_
        · exact setInode_keep (fun _ => rfl) (fun _ => rfl) (fun _ => rfl) fun _ => rfl
        · exact fun s start => .inr ⟨creating.1, dp, start.forget⟩
  · intro _
    refine Triple.bind (setError_spec (Q := Failed) fun u log told => told.failed .ENOENT)
      fun _ => ?_
    exact out_spec polite flag

/-- Another directory is entered from below. -/
theorem up_spec (polite : env.Polite homes) (m : ℕ) {next : InodeId → Call (Option InodeId)}
    {R : Option InodeId → Sys → Prop}
    (next_spec : ∀ up,
      Triple (At env before (.holding up []) fun _ log => Quiet log) (next up) R) :
    Triple (At env before (.free []) fun _ log => Quiet log)
      (do
        let t ← get
        match (t.kernel.mount m).m_inodp with
        | none => failure
        | some up => do
            enter env up
            next up) R := by
  refine get_spec.bind fun t => ?_
  cases (t.kernel.mount m).m_inodp with
  | none => exact Triple.failure
  | some up =>
      exact ((enter_spec polite).strengthen fun _ => And.right).bind fun _ => next_spec up

/-- An inode that has been found is looked at, since it may have been freed meanwhile. -/
theorem found_spec (polite : env.Polite homes) (flag : ℕ) (ip : InodeId)
    {next : Call (Option InodeId)}
    (next_spec : Triple (At env before (.holding ip []) fun _ log => Quiet log) next
      (Ended env before flag)) :
    Triple (At env before (.holding ip []) fun _ log => Quiet log)
      (do
        let t ← get
        if (t.kernel.inode ip).i_mode = 0 then do
          setError .ENOENT
          out env ip
        else
          next) (Ended env before flag) := by
  refine get_spec.bind fun t => ?_
  refine Triple.strengthen (P := At env before (.holding ip []) fun _ log => Quiet log) ?_
    fun _ => And.right
  apply Triple.ite
  · intro _
    refine Triple.bind (setError_spec (Q := Failed) fun u log quiet => ⟨rfl, quiet⟩) fun _ => ?_
    exact out_spec polite flag
  · exact fun _ => next_spec

/-- One more component of the name is looked up from a directory that is held. -/
theorem walk_spec (polite : env.Polite homes) (func : Func) (flag n : ℕ) (label : Label)
    (dp : InodeId) (c : ℤ) :
    Triple (At env before (.holding dp []) fun _ log => Quiet log) (walk env func flag n label dp c)
      (Ended env before flag) := by
  have quiet : Steady fun _ log => Quiet log := fun _ _ _ => id
  induction n generalizing label dp c with
  | zero => exact Triple.failure
  | succ n ih =>
      cases label with
      | cloop =>
          refine get_spec.bind fun s => Triple.ite ?_ ?_
          · intro failed
            refine Triple.strengthen (P := At env before (.holding dp []) Failed)
              (out_spec polite flag) ?_
            rintro _ ⟨rfl, fine, quiet⟩
            exact ⟨fine, failed, quiet⟩
          · intro _
            refine Triple.strengthen (P := At env before (.holding dp []) fun _ log => Quiet log) ?_
              fun _ => And.right
            apply Triple.ite
            · exact fun _ => Triple.pure (some dp) fun _ => id
            · intro _
              refine (component_spec func c).bind fun c => ?_
              cases (if c = 33 then env.mpxip else none) with
              | none => exact ih .seloop dp c
              | some mpxip =>
                  refine (iput_spec polite quiet).bind fun _ => (plock_spec polite _).bind
                    fun _ => ?_
                  refine Triple.bind (Q := fun _ =>
                    At env before (.holding mpxip []) fun _ log => Quiet log)
                    (Triple.modify _ ?_) fun _ => Triple.pure (some mpxip) fun _ => id
                  rintro _ ⟨s, ⟨fine, holds⟩, unlocked, rfl⟩
                  dsimp only
                  rw [setInode_setInode]
                  refine ⟨fine.setInode ?_, holds⟩
                  exact Moves.claim unlocked rfl rfl (fine.plain mpxip)
      | seloop =>
          refine (search_spec polite).bind fun result => ?_
          rcases result with _ | eo | _ | _
          · exact out_spec polite flag
          · exact absent_spec polite flag c eo
          · exact out_spec polite flag
          · apply Triple.ite
            · intro _
              refine (access_spec (P := fun _ log => Quiet log) (Q := Failed)
                (fun u log e quiet => ⟨rfl, quiet⟩) _).bind fun refused => ?_
              cases refused with
              | true => exact out_spec polite flag
              | false => exact Triple.pure (some dp) fun s start => start.forget
            · intro _
              refine get_spec.bind fun s => ?_
              refine Triple.strengthen
                (P := At env before (.inDir dp []) fun _ log => Quiet log) ?_ fun _ => And.right
              cases s.above dp with
              | some m =>
                  exact (iput_spec polite quiet).bind fun _ =>
                    up_spec polite m fun up => ih .seloop up c
              | none =>
                  refine (iput_spec polite quiet).bind fun _ => (iget_spec (Q := Failed) polite
                    failed_steady (fun u log e quiet => ⟨rfl, quiet⟩) _ _).bind fun found => ?_
                  cases found with
                  | none => exact Triple.pure none fun s start => .inl start
                  | some ip => exact found_spec polite flag ip (ih .cloop ip c)

/-- Of the user structure at most the error and the place in the name have changed. -/
def Same (s t : Sys) : Prop :=
  t.kernel = s.kernel ∧ t.rest = s.rest ∧ t.log = s.log ∧ t.u.u_cdir = s.u.u_cdir ∧
    t.u.u_rdir = s.u.u_rdir

theorem setUser_same {change : User → User} (cdir : ∀ u, (change u).u_cdir = u.u_cdir)
    (rdir : ∀ u, (change u).u_rdir = u.u_rdir) :
    Triple (Same s) (setUser change) fun _ => Same s :=
  Triple.modify _ fun _ ⟨kernel, rest, log, same, same'⟩ =>
    ⟨kernel, rest, log, (cdir _).trans same, (rdir _).trans same'⟩

/-- A character of the name changes nothing that is shared. -/
theorem call_same (func : Func) : Triple (Same s) (func.call env) fun _ => Same s := by
  cases func with
  | schar =>
      refine Triple.bind (Q := fun _ => Same s) (Triple.get fun _ => id) fun t => ?_
      refine Triple.bind (Q := fun _ => Same s) (setUser_same (fun _ => rfl) fun _ => rfl)
        fun _ => ?_
      exact Triple.pure _ fun _ => id
  | uchar =>
      refine Triple.bind (Q := fun _ => Same s) (Triple.get fun _ => id) fun t => ?_
      refine Triple.bind (Q := fun _ => Same s) (setUser_same (fun _ => rfl) fun _ => rfl)
        fun _ => ?_
      cases env.name t.u.u_dirp with
      | some c => exact Triple.pure _ fun _ => id
      | none =>
          refine Triple.bind (Q := fun _ => Same s) (setUser_same (fun _ => rfl) fun _ => rfl)
            fun _ => ?_
          exact Triple.pure _ fun _ => id

/-- Before a lookup nothing is held. -/
theorem Ready.start {t : Sys} (ready : Ready env s) (same : Same s t) :
    At env s.kernel.amount (.free []) (fun _ log => Quiet log) t := by
  obtain ⟨kernel, rest, log, -, -⟩ := same
  refine ⟨?_, fun more vacant => ?_⟩
  · exact
      { amounts := fun r => by
          rw [kernel, rest, ready.rest]
          cases r <;> simp [Hand.charge, Hand.free]
        locked := fun ip none => by cases none
        counted := fun ip none => by cases none
        busy := fun b mem => by cases mem
        apart := List.nodup_nil
        dir := fun known => by cases known
        bare := fun known => by cases known
        idle := kernel ▸ ready.idle
        plain := kernel ▸ ready.plain
        alone := fun _ => rest.trans ready.rest }
  · rw [log, ready.log] at vacant
    cases vacant

theorem namei_spec (polite : env.Polite (s.homes env)) (ready : Ready env s) (func : Func)
    (flag : ℕ) : Triple (Same s) (namei env func flag) (Ended env s.kernel.amount flag) := by
  refine (call_same func).bind fun c => ?_
  refine Triple.bind (Q := fun a t => t = a ∧ Same s t) (Triple.get fun _ same => ⟨rfl, same⟩)
    fun a => ?_
  refine Triple.assume (Same s a) ?_ fun same => ?_
  · rintro _ ⟨rfl, same⟩
    exact same
  have mem : a.start env c ∈ s.homes env := by
    obtain ⟨-, -, -, cdir, rdir⟩ := same
    simp only [Sys.start, Sys.homes, cdir, rdir]
    split <;> simp
  have found : Triple
      (fun t => At env s.kernel.amount (.free []) (fun _ log => Quiet log) t ∧
        Named (a.start env c) (a.kernel.inode (a.start env c)).i_dev
          (a.kernel.inode (a.start env c)).i_number t)
      (iget env env.patience (a.kernel.inode (a.start env c)).i_dev
        (a.kernel.inode (a.start env c)).i_number)
      fun _ => At env s.kernel.amount (.holding (a.start env c) []) fun _ log => Quiet log :=
    iget_home polite mem env.patience
  refine Triple.bind (found.strengthen ?_) fun _ => (slashes_spec func _ c).bind fun c => ?_
  · rintro _ ⟨rfl, -⟩
    refine ⟨ready.start same, ?_, rfl, rfl⟩
    rw [same.1]
    exact ready.home _ mem
  · refine Triple.bind (whenever_spec fun _ => setError_spec fun u log quiet => quiet) fun _ => ?_
    exact walk_spec polite func flag _ .cloop _ c

end Routines

/-! ## What is left -/

/-- The inode is locked and has one more reference than without the call, and nothing else is
changed by it. -/
def Only (ip : InodeId) (s : Sys) : Prop :=
  (s.kernel.inode ip).locked ∧ ∀ r, s.kernel.amount r = s.rest r + match r with
    | .lock other => if other = ip then 1 else 0
    | .count other => if other = ip then 1 else 0
    | .buffer _ _ => 0

/-- No inode is locked or has a reference, and no buffer is busy, on account of the call. -/
def Nothing (s : Sys) : Prop := ∀ r, s.kernel.amount r = s.rest r

/-- A lookup leaves what its result says. -/
def Balanced (flag : ℕ) (result : Option InodeId) (s : Sys) : Prop :=
  match result with
  | some ip => Only ip s
  | none => (flag = 1 → s.u.u_error = none → ∃ dp, s.u.u_pdir = some dp ∧ Only dp s) ∧
      (s.u.u_error ≠ none → Nothing s)

/-- The name has been found missing by a search that passed a block for which `bmap` failed. -/
def Missed (log : List Event) : Prop := ∃ more, log = .vacant :: .unmapped :: more

section

variable {env : Env} {before : Item → ℤ} {s : Sys} {P : User → List Event → Prop} {ip : InodeId}

theorem At.only (held : At env before (.holding ip []) P s) : Only ip s := by
  refine ⟨held.1.locked ip rfl, fun r => ?_⟩
  rw [held.1.amounts r]
  cases r <;> simp [Hand.charge, Hand.holding, eq_comm]

theorem At.nothing (held : At env before (.free []) P s) : Nothing s := by
  intro r
  rw [held.1.amounts r]
  cases r <;> simp [Hand.charge, Hand.free]

/-- An inode that is held is something. -/
theorem Only.not_nothing (only : Only ip s) : ¬Nothing s := by
  intro nothing
  have one := only.2 (.lock ip)
  rw [nothing (.lock ip)] at one
  simp only [if_true] at one
  omega

theorem Ended.balanced_iff {flag : ℕ} {result : Option InodeId}
    (ended : Ended env before flag result s) : Balanced flag result s ↔ ¬Missed s.log := by
  cases result with
  | some ip =>
      have held : At env before (.holding ip []) (fun _ log => Quiet log) s := ended
      refine iff_of_true held.only ?_
      rintro ⟨more, missed⟩
      exact ended.2 _ missed
  | none =>
      rcases ended with ended | ⟨creating, dp, vacated⟩
      · refine iff_of_true ⟨fun _ fine => ?_, fun _ => ended.nothing⟩ ?_
        · have failed := ended.2.1
          rw [fine] at failed
          cases failed
        · rintro ⟨more, missed⟩
          exact ended.2.2 _ missed
      · obtain ⟨pdir, more, log, told⟩ := vacated.2
        have only := vacated.only
        constructor
        · rintro ⟨-, failed⟩ ⟨rest, missed⟩
          obtain rfl : more = .unmapped :: rest := (List.cons.inj (log.symm.trans missed)).2
          have error : s.u.u_error ≠ none := Option.isSome_iff_ne_none.mp (told.mpr ⟨rest, rfl⟩)
          exact only.not_nothing (failed error)
        · intro fine
          refine ⟨fun _ _ => ⟨dp, pdir, only⟩, fun error => ?_⟩
          obtain ⟨rest, rfl⟩ := told.mp (Option.isSome_iff_ne_none.mpr error)
          exact absurd ⟨rest, log⟩ fine

theorem Ended.alone {flag : ℕ} {result : Option InodeId}
    (ended : Ended env before flag result s) (alone : env.Alone) : s.rest = before := by
  cases result with
  | some ip => exact ended.1.alone alone
  | none =>
      rcases ended with ended | ⟨-, dp, vacated⟩
      · exact ended.1.alone alone
      · exact vacated.1.alone alone

/-- A lookup locks what it returns and nothing else, unless a block of the directory for a new
name could not be found by `bmap`. With nobody else about, what there would be without the call
is what there was before it. -/
theorem namei_balanced_iff {t : Sys} (polite : env.Polite (s.homes env)) (ready : Ready env s)
    (func : Func) (flag : ℕ) (result : Option InodeId)
    (returned : namei env func flag s = some (result, t)) :
    (env.Alone → t.rest = s.kernel.amount) ∧ (Balanced flag result t ↔ ¬Missed t.log) := by
  have ended := namei_spec polite ready func flag s ⟨rfl, rfl, rfl, rfl, rfl⟩ result t returned
  exact ⟨ended.alone, ended.balanced_iff⟩

end

/-! ## A directory whose indirect block cannot be read -/

/-- The inode of a directory with 321 entries, the last of them behind the indirect block. -/
def largeDirectory : Inode where
  locked := false
  mounted := false
  wanted := false
  text := false
  changed := false
  i_count := 1
  i_dev := 1
  i_number := 2
  i_mode := 0o40777
  i_nlink := 2
  i_uid := 0
  i_gid := 0
  i_size := 5136
  i_addr i := 30 + i

/-- The superblock of the device of the directory. -/
def mountedFilsys : Filsys where
  s_isize := 30
  s_fsize := 1000
  s_nfree := 0
  s_free _ := 0
  s_ninode := 0
  s_inode _ := 0
  s_flock := 0
  s_ilock := 0
  s_fmod := 0
  s_ronly := 0

/-- The directory is the only inode in core. -/
def oneDirectory : Kernel where
  inode ip :=
    if ip = 0 then
      largeDirectory
    else
      { largeDirectory with i_count := 0, i_dev := 0, i_number := 0, i_mode := 0, i_size := 0 }
  mount m := if m = 0 then ⟨1, some mountedFilsys, none⟩ else ⟨0, none, none⟩
  busy _ _ := false

/-- A process in the directory. -/
def inOneDirectory : Sys where
  kernel := oneDirectory
  u :=
    { u_error := none, u_dirp := 0, u_offset := 0, u_segflg := 0, u_dbuf := [], u_dent := ⟨0, []⟩
      u_pdir := none, u_cdir := 0, u_rdir := none, u_uid := 0, u_gid := 0 }
  rest := oneDirectory.amount
  waits := 0
  log := []

/-- The name `a`, nobody else about, all entries empty, and block `bad` cannot be read. -/
def lookupOfA (bad : ℤ) : Env where
  name n := if n = 0 then some 97 else some 0
  rootdir := 0
  mpxip := none
  others _ _ k := k
  read _ _ blkno := if blkno = bad then .error Errno.EIO else .ok fun _ => 0
  write _ _ _ := none
  xrele _ k := k
  patience := 400

theorem lookupOfA_polite (bad : ℤ) (homes : List InodeId) : (lookupOfA bad).Polite homes where
  lock _ _ _ _ _ locked := ⟨locked, rfl, rfl⟩
  count _ _ _ _ few := few
  buffer _ _ _ _ _ _ busy := busy
  idle _ _ _ idle := idle
  plain _ _ _ plain := plain
  home _ _ _ _ _ home := ⟨home, rfl, rfl⟩

theorem inOneDirectory_ready (bad : ℤ) : Ready (lookupOfA bad) inOneDirectory where
  rest := rfl
  log := rfl
  idle ip _ := by
    by_cases here : ip = 0 <;> simp [inOneDirectory, oneDirectory, here, largeDirectory]
  plain ip _ := by
    by_cases here : ip = 0 <;> simp [inOneDirectory, oneDirectory, here, largeDirectory]
  home ip mem := by
    obtain rfl : ip = 0 := by simpa [Sys.homes, inOneDirectory, lookupOfA] using mem
    exact ⟨by decide, rfl⟩

/-- With all blocks readable the directory is left for the new name. -/
theorem balanced_lookupOfA :
    ∃ t, namei (lookupOfA 0) .uchar 1 inOneDirectory = some (none, t) ∧ Balanced 1 none t := by
  have run : (namei (lookupOfA 0) .uchar 1 inOneDirectory).map (fun p => (p.1, p.2.log)) =
      some (none, [.vacant, .search 0]) := by decide +kernel
  obtain ⟨⟨result, t⟩, returned, logged⟩ := Option.map_eq_some_iff.mp run
  obtain ⟨rfl, log⟩ := Prod.mk.inj logged
  refine ⟨t, returned, ?_⟩
  have spec := namei_balanced_iff (lookupOfA_polite 0 _) (inOneDirectory_ready 0) .uchar 1 none
    returned
  refine spec.2.mpr ?_
  rintro ⟨more, missed⟩
  rw [log] at missed
  cases missed

/-- With the indirect block unreadable the call fails and leaves the directory locked. -/
theorem not_forall_balanced :
    ¬∀ (env : Env) (s t : Sys) (func : Func) (flag : ℕ) (result : Option InodeId),
      env.Polite (s.homes env) → Ready env s → namei env func flag s = some (result, t) →
        Balanced flag result t := by
  intro balanced
  have run : (namei (lookupOfA 40) .uchar 1 inOneDirectory).map (fun p =>
      (p.1, p.2.u.u_error, decide (p.2.kernel.amount (.lock 0) = p.2.rest (.lock 0)))) =
        some (none, some Errno.EIO, false) := by decide +kernel
  obtain ⟨⟨result, t⟩, returned, outcome⟩ := Option.map_eq_some_iff.mp run
  obtain ⟨rfl, rest⟩ := Prod.mk.inj outcome
  obtain ⟨error, changed⟩ := Prod.mk.inj rest
  have failed : t.u.u_error ≠ none := ne_of_eq_of_ne error (by decide)
  have nothing := (balanced _ _ _ _ _ _ (lookupOfA_polite 40 _) (inOneDirectory_ready 40)
    returned).2 failed
  exact of_decide_eq_false changed (nothing (.lock 0))

end UnixV7.Nami
