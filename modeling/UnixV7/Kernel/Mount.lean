import UnixV7.Library.Interleaving
import UnixV7.Kernel.Filsys

/-!
# Mounting

The `mount` system call `smount` of `sys3.c`. It looks for a free entry of the mount table, and
only after the driver's open, `bread` and `geteblk`, which all can sleep, does it claim the
entry by setting `m_bufp`. Two calls between these points choose the same entry.
-/

namespace UnixV7

open Function

/-- An entry of the mount table; `m_bufp` is null in a free one. -/
structure Mount where
  m_dev : Dev
  m_bufp : Option BufId
  m_inodp : Option InodeId

/-- An index into the mount table. -/
abbrev MountId := Fin NMOUNT

namespace Smount

/-- What `getmdev` and `namei` made of the arguments of a call. -/
structure Args where
  dev : Dev
  ip : InodeId
  ronly : ℕ
  deriving DecidableEq

/-- The mount table, the buffers and the superblocks on the devices. -/
structure State where
  mount : MountId → Mount
  busy : BufId → Bool
  content : BufId → Filsys
  /-- The superblock which `bread` finds on each device. -/
  disk : Dev → Filsys
  /-- The flag `IMOUNT` of each inode. -/
  mountedOn : InodeId → Bool
  /-- The calls that have returned without error, with the entry each one took. -/
  done : List (MountId × Args)

/-- Where a call is suspended. -/
inductive Place
  | idle
  | opening (mp : MountId) (args : Args)
  | reading (mp : MountId) (args : Args)
  | claiming (mp : MountId) (args : Args) (bp : BufId)
  | leaving (error : Errno)
  deriving DecidableEq

/-- What happens to a call at the place it has reached. -/
inductive Event
  /-- `namei` has returned the directory, with these values in its inode. -/
  | enter (args : Args) (i_count i_mode : ℕ)
  /-- The driver's open returns. -/
  | opened (error : Option Errno)
  /-- `bread` returns a buffer for the superblock. -/
  | read (bp : BufId) (error : Option Errno)
  /-- `geteblk` returns a buffer. -/
  | block (b : BufId)
  /-- The call returns with its error. -/
  | leave

namespace State

/-- The loop of `smount` over the mount table, with the first free entry found so far. -/
def scanFrom (s : State) (dev : Dev) : List MountId → Option MountId → Option MountId
  | [], smp => smp
  | mp :: rest, smp =>
      match (s.mount mp).m_bufp with
      | some _ => if dev = (s.mount mp).m_dev then none else s.scanFrom dev rest smp
      | none => s.scanFrom dev rest (smp.or (some mp))

/-- The entry a call chooses for a device; none when the device is mounted or the table full. -/
def scan (s : State) (dev : Dev) : Option MountId :=
  s.scanFrom dev (List.finRange NMOUNT) none

/-- The copy of a superblock as `smount` leaves it in the buffer of the entry. -/
def copied (s : State) (args : Args) : Filsys :=
  { s.disk args.dev with s_ilock := 0, s_flock := 0, s_ronly := args.ronly &&& 1 }

end State

/-- The processes that mount. -/
def system (ι : Type*) : System ι Event State Place where
  start := .idle
  next _ e s l :=
    match e, l with
    | .enter args i_count i_mode, .idle =>
        if i_count ≠ 1 ∨ i_mode &&& (IFBLK &&& IFCHR) ≠ 0 then
          some (s, .leaving .EBUSY)
        else
          match s.scan args.dev with
          | none => some (s, .leaving .EBUSY)
          | some mp => some (s, .opening mp args)
    | .opened (some _), .opening _ _ => some (s, .leaving .EBUSY)
    | .opened none, .opening mp args => some (s, .reading mp args)
    | .read _ (some error), .reading _ _ => some (s, .leaving error)
    | .read bp none, .reading mp args =>
        if s.busy bp then
          none
        else
          some ({ s with
              busy := update s.busy bp true
              content := update s.content bp (s.disk args.dev)
              mount := update s.mount mp
                { s.mount mp with m_inodp := some args.ip, m_dev := args.dev } },
            .claiming mp args bp)
    | .block b, .claiming mp args bp =>
        if s.busy b then
          none
        else
          some ({ s with
              busy := update (update s.busy b true) bp false
              content := update s.content b
                { s.content bp with s_ilock := 0, s_flock := 0, s_ronly := args.ronly &&& 1 }
              mount := update s.mount mp { s.mount mp with m_bufp := some b }
              mountedOn := update s.mountedOn args.ip true
              done := (mp, args) :: s.done },
            .idle)
    | .leave, .leaving _ => some (s, .idle)
    | _, _ => none

/-- The entry and the arguments of a call between its scan of the table and its claim. -/
def Place.entry : Place → Option (MountId × Args)
  | .opening mp args | .reading mp args | .claiming mp args _ => some (mp, args)
  | .idle | .leaving _ => none

/-- Every call that has returned without error owns its entry, and no device is mounted twice. -/
structure Owned (s : State) : Prop where
  entry : ∀ call ∈ s.done, (s.mount call.1).m_dev = call.2.dev ∧
    (s.mount call.1).m_inodp = some call.2.ip ∧
    ∃ b, (s.mount call.1).m_bufp = some b ∧ s.content b = s.copied call.2
  distinct : (s.done.map Prod.fst).Nodup
  single : ∀ i j, (s.mount i).m_bufp ≠ none → (s.mount j).m_bufp ≠ none →
    (s.mount i).m_dev = (s.mount j).m_dev → i = j

/-- A mount table before the calls: the buffers it names are in use, and no device is mounted
twice. -/
structure Initial (s : State) : Prop where
  none_done : s.done = []
  busy : ∀ i b, (s.mount i).m_bufp = some b → s.busy b = true
  single : ∀ i j, (s.mount i).m_bufp ≠ none → (s.mount j).m_bufp ≠ none →
    (s.mount i).m_dev = (s.mount j).m_dev → i = j

/-- The call gives up without looking for an entry, or finds none. -/
def Refused (s : State) (args : Args) (i_count i_mode : ℕ) : Prop :=
  i_count ≠ 1 ∨ i_mode &&& (IFBLK &&& IFCHR) ≠ 0 ∨
    (∃ mp, (s.mount mp).m_bufp ≠ none ∧ (s.mount mp).m_dev = args.dev) ∨
    ∀ mp, (s.mount mp).m_bufp ≠ none

/-- A call may look for an entry only while no other call is between its scan and its claim. -/
def Alone {ι : Type*} (w : World ι State Place) (_ : ι) (e : Event) : Prop :=
  ∀ args i_count i_mode, e = .enter args i_count i_mode →
    Refused w.shared args i_count i_mode ∨ ∀ q, (w.loc q).entry = none

/-! ## The scan -/

theorem State.scanFrom_eq_some {s : State} {dev : Dev} {rest : List MountId}
    {smp : Option MountId} {mp : MountId} (found : s.scanFrom dev rest smp = some mp) :
    (smp = some mp ∨ (s.mount mp).m_bufp = none) ∧
      ∀ i ∈ rest, (s.mount i).m_bufp ≠ none → (s.mount i).m_dev ≠ dev := by
  induction rest generalizing smp with
  | nil => exact ⟨.inl found, by simp⟩
  | cons i rest ih =>
      cases used : (s.mount i).m_bufp with
      | some b =>
          simp only [scanFrom, used] at found
          split at found
          · simp at found
          · next other =>
              obtain ⟨free, fresh⟩ := ih found
              refine ⟨free, fun j mem taken => ?_⟩
              rcases List.mem_cons.mp mem with rfl | mem
              · exact Ne.symm other
              · exact fresh j mem taken
      | none =>
          simp only [scanFrom, used] at found
          obtain ⟨free, fresh⟩ := ih found
          constructor
          · rcases free with before | free
            · cases smp with
              | none =>
                  obtain rfl : i = mp := by simpa using before
                  exact .inr used
              | some first => exact .inl before
            · exact .inr free
          · intro j mem taken
            rcases List.mem_cons.mp mem with rfl | mem
            · exact absurd used taken
            · exact fresh j mem taken

/-- The entry found is free and the device is not mounted. -/
theorem State.scan_eq_some {s : State} {dev : Dev} {mp : MountId} (found : s.scan dev = some mp) :
    (s.mount mp).m_bufp = none ∧
      ∀ i, (s.mount i).m_bufp ≠ none → (s.mount i).m_dev ≠ dev := by
  obtain ⟨free, fresh⟩ := scanFrom_eq_some found
  exact ⟨free.resolve_left (by simp), fun i => fresh i (List.mem_finRange i)⟩

/-! ## One call at a time between scan and claim -/

/-- The entry is free and the device not mounted. -/
def Available (s : State) (mp : MountId) (args : Args) : Prop :=
  (s.mount mp).m_bufp = none ∧ ∀ i, (s.mount i).m_bufp ≠ none → (s.mount i).m_dev ≠ args.dev

/-- What a call relies on at the place it has reached. -/
def Facts (s : State) : Place → Prop
  | .idle | .leaving _ => True
  | .opening mp args | .reading mp args => Available s mp args
  | .claiming mp args bp =>
      Available s mp args ∧ (s.mount mp).m_dev = args.dev ∧
        (s.mount mp).m_inodp = some args.ip ∧ s.busy bp = true ∧
        s.content bp = s.disk args.dev ∧ ∀ i, (s.mount i).m_bufp ≠ some bp

theorem facts_of_entry {s : State} {l : Place} (out : l.entry = none) : Facts s l := by
  cases l with
  | idle => trivial
  | leaving error => trivial
  | opening mp args => simp [Place.entry] at out
  | reading mp args => simp [Place.entry] at out
  | claiming mp args bp => simp [Place.entry] at out

/-- The invariant of the runs in which the calls do not overlap between scan and claim. -/
structure Serial {ι : Type*} (w : World ι State Place) : Prop where
  owned : Owned w.shared
  busy : ∀ i b, (w.shared.mount i).m_bufp = some b → w.shared.busy b = true
  alone : ∀ p q, (w.loc p).entry ≠ none → (w.loc q).entry ≠ none → p = q
  facts : ∀ p, Facts w.shared (w.loc p)

namespace Serial

variable {ι : Type*} {w : World ι State Place} {s : State} {l : Place} {p : ι}
  {mp : MountId} {args : Args} {bp b : BufId}

theorem others (inv : Serial w) (inside : (w.loc p).entry ≠ none) :
    ∀ q, q ≠ p → (w.loc q).entry = none := by
  intro q other
  by_contra also
  exact other (inv.alone q p also inside)

variable [DecidableEq ι]

/-- When nobody else is between scan and claim, only the moving call has facts to keep. -/
theorem advance (owned : Owned s)
    (busy : ∀ i b, (s.mount i).m_bufp = some b → s.busy b = true)
    (quiet : ∀ q, q ≠ p → (w.loc q).entry = none) (facts : Facts s l) :
    Serial ⟨s, update w.loc p l⟩ where
  owned := owned
  busy := busy
  alone q r left right := by
    have here : ∀ q, (update w.loc p l q).entry ≠ none → q = p := by
      intro q inside
      by_contra other
      rw [update_of_ne other] at inside
      exact inside (quiet q other)
    rw [here q left, here r right]
  facts := by
    rw [forall_update_iff w.loc fun _ place => Facts s place]
    exact ⟨facts, fun q other => facts_of_entry (quiet q other)⟩

/-- A call that gives up or returns changes nothing for the others. -/
theorem withdraw (inv : Serial w) (out : l.entry = none) :
    Serial ⟨w.shared, update w.loc p l⟩ where
  owned := inv.owned
  busy := inv.busy
  alone q r left right := by
    have before : ∀ q, (update w.loc p l q).entry ≠ none → (w.loc q).entry ≠ none := by
      intro q inside
      by_cases same : q = p
      · subst same
        rw [update_self] at inside
        exact absurd out inside
      · rwa [update_of_ne same] at inside
    exact inv.alone q r (before q left) (before r right)
  facts := by
    rw [forall_update_iff w.loc fun _ place => Facts w.shared place]
    exact ⟨facts_of_entry out, fun q _ => inv.facts q⟩

theorem enter (inv : Serial w) (quiet : ∀ q, (w.loc q).entry = none)
    (chosen : w.shared.scan args.dev = some mp) :
    Serial ⟨w.shared, update w.loc p (.opening mp args)⟩ :=
  advance inv.owned inv.busy (fun q _ => quiet q) (State.scan_eq_some chosen)

theorem opened (inv : Serial w) (here : w.loc p = .opening mp args) :
    Serial ⟨w.shared, update w.loc p (.reading mp args)⟩ := by
  have facts := inv.facts p
  rw [here] at facts
  exact advance inv.owned inv.busy (inv.others (by simp [here, Place.entry])) facts

/-- The entry is filled but for `m_bufp`; it stays free, so nothing that is owned changes. -/
theorem read (inv : Serial w) (here : w.loc p = .reading mp args)
    (idle : w.shared.busy bp = false) :
    Serial ⟨{ w.shared with
      busy := update w.shared.busy bp true
      content := update w.shared.content bp (w.shared.disk args.dev)
      mount := update w.shared.mount mp
        { w.shared.mount mp with m_inodp := some args.ip, m_dev := args.dev } },
      update w.loc p (.claiming mp args bp)⟩ := by
  have facts := inv.facts p
  rw [here] at facts
  obtain ⟨free, fresh⟩ := facts
  have held : ∀ i b, (w.shared.mount i).m_bufp = some b → i ≠ mp ∧ b ≠ bp := by
    intro i b taken
    constructor
    · rintro rfl
      simp [free] at taken
    · rintro rfl
      simp [inv.busy i _ taken] at idle
  have bufp : ∀ i, (update w.shared.mount mp { w.shared.mount mp with
      m_inodp := some args.ip, m_dev := args.dev } i).m_bufp = (w.shared.mount i).m_bufp := by
    intro i
    by_cases same : i = mp
    · subst same
      simp
    · simp [same]
  have taken_of : ∀ i, (w.shared.mount i).m_bufp ≠ none → i ≠ mp := by
    rintro _ taken rfl
    exact taken free
  refine advance ?_ ?_ (inv.others (by simp [here, Place.entry])) ?_
  · refine ⟨fun call member => ?_, inv.owned.distinct, fun i j left right same => ?_⟩
    · obtain ⟨dev, ip, b, taken, copy⟩ := inv.owned.entry call member
      obtain ⟨other, off⟩ := held call.1 b taken
      exact ⟨by simpa [other] using dev, by simpa [other] using ip, b,
        by simpa [other] using taken, by simpa [off, State.copied] using copy⟩
    · simp only [bufp] at left right
      simp only [update_of_ne (taken_of i left), update_of_ne (taken_of j right)] at same
      exact inv.owned.single i j left right same
  · intro i b taken
    simp only [bufp] at taken
    simp [(held i b taken).2, inv.busy i b taken]
  · refine ⟨⟨by simp [free], fun i taken => ?_⟩, by simp, by simp, by simp, by simp, ?_⟩
    · simp only [bufp] at taken
      simpa [taken_of i taken] using fresh i taken
    · intro i taken
      simp only [bufp] at taken
      exact (held i bp taken).2 rfl

/-- The entry is claimed: the call owns it from here on. -/
theorem block (inv : Serial w) (here : w.loc p = .claiming mp args bp)
    (idle : w.shared.busy b = false) :
    Serial ⟨{ w.shared with
      busy := update (update w.shared.busy b true) bp false
      content := update w.shared.content b
        { w.shared.content bp with s_ilock := 0, s_flock := 0, s_ronly := args.ronly &&& 1 }
      mount := update w.shared.mount mp { w.shared.mount mp with m_bufp := some b }
      mountedOn := update w.shared.mountedOn args.ip true
      done := (mp, args) :: w.shared.done }, update w.loc p .idle⟩ := by
  have facts := inv.facts p
  rw [here] at facts
  obtain ⟨⟨free, fresh⟩, dev, ip, used, copy, apart⟩ := facts
  have other_of : ∀ i c, (w.shared.mount i).m_bufp = some c → i ≠ mp ∧ c ≠ b ∧ c ≠ bp := by
    intro i c taken
    refine ⟨?_, ?_, ?_⟩
    · rintro rfl
      simp [free] at taken
    · rintro rfl
      simp [inv.busy i _ taken] at idle
    · rintro rfl
      exact apart i taken
  have distinct : b ≠ bp := by
    rintro rfl
    simp [used] at idle
  refine advance ?_ ?_ (inv.others (by simp [here, Place.entry])) trivial
  · refine ⟨fun call member => ?_, ?_, fun i j left right same => ?_⟩
    · rcases List.mem_cons.mp member with rfl | member
      · exact ⟨by simpa using dev, by simpa using ip, b, by simp, by simp [copy, State.copied]⟩
      · obtain ⟨dev, ip, c, taken, copy⟩ := inv.owned.entry call member
        obtain ⟨other, off, -⟩ := other_of call.1 c taken
        exact ⟨by simpa [other] using dev, by simpa [other] using ip, c,
          by simpa [other] using taken, by simpa [off, State.copied] using copy⟩
    · refine List.nodup_cons.mpr ⟨fun again => ?_, inv.owned.distinct⟩
      obtain ⟨call, member, same⟩ := List.mem_map.mp again
      obtain ⟨-, -, c, taken, -⟩ := inv.owned.entry call member
      exact (other_of call.1 c taken).1 same
    · by_cases first : i = mp
      · by_cases second : j = mp
        · rw [first, second]
        · subst first
          simp only [update_self, update_of_ne second] at right same
          exact absurd (same.symm.trans dev) (fresh j right)
      · by_cases second : j = mp
        · subst second
          simp only [update_self, update_of_ne first] at left same
          exact absurd (same.trans dev) (fresh i left)
        · simp only [update_of_ne first, update_of_ne second] at left right same
          exact inv.owned.single i j left right same
  · intro i c taken
    by_cases same : i = mp
    · subst same
      obtain rfl : b = c := by simpa using taken
      simp [distinct]
    · simp only [update_of_ne same] at taken
      obtain ⟨-, off, away⟩ := other_of i c taken
      simp [off, away, inv.busy i c taken]

/-- Every allowed move keeps the invariant. -/
theorem step {e : Event} (inv : Serial w) (may : Alone w p e)
    (moved : (system ι).next p e w.shared (w.loc p) = some (s, l)) :
    Serial ⟨s, update w.loc p l⟩ := by
  simp only [system] at moved
  split at moved
  · next args i_count i_mode _ =>
      have start := may args i_count i_mode rfl
      split at moved
      · obtain ⟨rfl, rfl⟩ := Prod.mk.inj (Option.some.inj moved)
        exact inv.withdraw rfl
      · next passed =>
          split at moved
          · obtain ⟨rfl, rfl⟩ := Prod.mk.inj (Option.some.inj moved)
            exact inv.withdraw rfl
          · next mp chosen =>
              obtain ⟨rfl, rfl⟩ := Prod.mk.inj (Option.some.inj moved)
              obtain ⟨free, fresh⟩ := State.scan_eq_some chosen
              refine inv.enter (start.resolve_left ?_) chosen
              rintro (count | mode | ⟨i, taken, same⟩ | full)
              · exact passed (.inl count)
              · exact passed (.inr mode)
              · exact fresh i taken same
              · exact full mp free
  · obtain ⟨rfl, rfl⟩ := Prod.mk.inj (Option.some.inj moved)
    exact inv.withdraw rfl
  · next mp args here =>
      obtain ⟨rfl, rfl⟩ := Prod.mk.inj (Option.some.inj moved)
      exact inv.opened here
  · obtain ⟨rfl, rfl⟩ := Prod.mk.inj (Option.some.inj moved)
    exact inv.withdraw rfl
  · next bp mp args here =>
      split at moved
      · simp at moved
      · next idle =>
          obtain ⟨rfl, rfl⟩ := Prod.mk.inj (Option.some.inj moved)
          exact inv.read here (by simpa using idle)
  · next b mp args bp here =>
      split at moved
      · simp at moved
      · next idle =>
          obtain ⟨rfl, rfl⟩ := Prod.mk.inj (Option.some.inj moved)
          exact inv.block here (by simpa using idle)
  · obtain ⟨rfl, rfl⟩ := Prod.mk.inj (Option.some.inj moved)
    exact inv.withdraw rfl
  · simp at moved

end Serial

/-- In every run in which no call looks for an entry while another is between its scan and its
claim, each call that has returned without error owns its entry. -/
theorem owned_of_run {ι : Type*} [DecidableEq ι] {w : World ι State Place}
    (run : (system ι).Run Initial Alone w) : Owned w.shared := by
  refine (run.invariant Serial (fun s fresh => ?_) fun w p e s l inv may moved =>
    inv.step may moved).owned
  exact
    { owned := ⟨by simp [fresh.none_done], by simp [fresh.none_done], fresh.single⟩
      busy := fresh.busy
      alone := by simp [system, Place.entry]
      facts := fun _ => trivial }

/-! ## Two calls in the window -/

/-- An empty mount table; every device holds a file system of 1000 blocks. -/
def unmounted : State where
  mount _ := ⟨0, none, none⟩
  busy _ := false
  content _ := ⟨0, 0, 0, fun _ => 0, 0, fun _ => 0, 0, 0, 0, 0⟩
  disk _ := ⟨10, 1000, 1, fun _ => 0, 0, fun _ => 0, 0, 0, 0, 0⟩
  mountedOn _ := false
  done := []

theorem unmounted_initial : Initial unmounted :=
  ⟨rfl, by simp [unmounted], by simp [unmounted]⟩

/-- A second process is refused while the first one mounts, and then mounts in the next entry. -/
theorem owned_of_mount_twice :
    ∃ w, (system Bool).Run Initial Alone w ∧ w.shared.done =
      [(⟨1, by decide⟩, ⟨2, 6, 0⟩), (⟨0, by decide⟩, ⟨1, 5, 0⟩)] ∧ Owned w.shared := by
  have later : ∀ (w : World Bool State Place) p e, (∀ args count mode, e ≠ .enter args count mode) →
      Alone w p e := fun w p e other args count mode same => absurd same (other args count mode)
  have start : (system Bool).Run Initial Alone _ := .start unmounted_initial
  have entered := start.next (p := false) (e := .enter ⟨1, 5, 0⟩ 1 0)
    (fun _ _ _ _ => .inr fun _ => rfl) rfl
  have opened := entered.next (p := false) (e := .opened none) (later _ _ _ (by simp)) rfl
  have refused := opened.next (p := true) (e := .enter ⟨2, 6, 0⟩ 2 0)
    (fun args count mode same => by
      obtain ⟨rfl, rfl, rfl⟩ := Event.enter.inj same
      exact .inl (.inl (by decide))) rfl
  have read := refused.next (p := false) (e := .read 0 none) (later _ _ _ (by simp)) rfl
  have mounted := read.next (p := false) (e := .block 2) (later _ _ _ (by simp)) rfl
  have left := mounted.next (p := true) (e := .leave) (later _ _ _ (by simp)) rfl
  have entered := left.next (p := true) (e := .enter ⟨2, 6, 0⟩ 1 0)
    (fun _ _ _ _ => .inr fun q => by cases q <;> rfl) rfl
  have opened := entered.next (p := true) (e := .opened none) (later _ _ _ (by simp)) rfl
  have read := opened.next (p := true) (e := .read 0 none) (later _ _ _ (by simp)) rfl
  have run := read.next (p := true) (e := .block 3) (later _ _ _ (by simp)) rfl
  exact ⟨_, run, rfl, owned_of_run run⟩

/-- Two calls for different devices both find entry 0 free and both return without error. -/
theorem not_forall_reachable_owned :
    ¬∀ w, (system ℕ).Reachable Initial w → Owned w.shared := by
  intro all
  have owned := all _ (System.reachable_of_exec
    [(0, .enter ⟨1, 5, 0⟩ 1 0), (1, .enter ⟨2, 6, 0⟩ 1 0), (0, .opened none),
      (1, .opened none), (0, .read 0 none), (1, .read 1 none), (0, .block 2), (1, .block 3)]
    unmounted_initial rfl)
  exact absurd owned.distinct (by decide)

end Smount

end UnixV7
