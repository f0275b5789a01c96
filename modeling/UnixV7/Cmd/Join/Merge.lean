import UnixV7.Cmd.Join.Main

/-!
# What join puts out

Every turn of the loop of `main` takes a line from one file, or a group of lines from both, and
the join of the lines taken is put out. It ends for every two files. Sorted files are joined up to
the first line without fields, which is taken for the end of its file: the whole join is put out
exactly when no line from there on belongs to it.
-/

namespace UnixV7.Join

open Fuel

variable {o : Options} {files : Files} {s : State} {xs ys : List (List Field)} {x y : List Field}

/-! ## A turn of the loop -/

/-- The files have been read up to `xs` and `ys`. -/
structure At (o : Options) (files : Files) (xs ys : List (List Field)) (s : State) : Prop where
  at1 : At1 o files xs s
  at2 : At2 o files s.bot2 ys s

/-- The loop goes on in another state. -/
def Continues (o : Options) (files : Files) (s s' : State) : Prop :=
  ∀ s'', Settles (fun fuel => s'.loop o files fuel) s'' →
    Settles (fun fuel => s.loop o files fuel) s''

theorem comp_at (here : At o files (x :: xs) (y :: ys) s) :
    (s.comp o < 0 ↔ o.key1 x < o.key2 y) ∧ (s.comp o = 0 ↔ o.key2 y = o.key1 x) ∧
      (0 < s.comp o ↔ o.key2 y < o.key1 x) := by
  have front : s.ppi1 = x := here.at1.ppi1
  have first : s.ppi2 = y := here.at2.ppi2
  have clean₁ := here.at1.clean x List.mem_cons_self
  have clean₂ := here.at2.reads.clean List.mem_cons_self o.j2
  rw [← front, ← first] at *
  exact comp_spec clean₁ clean₂

theorem put_if_spec (s : State) (wanted : Bool) (line : Put (List Field) (List Field)) :
    ∃ t, (if wanted then s.put line else s) = t ∧ t.ppi1 = s.ppi1 ∧ t.ppi2 = s.ppi2 ∧
      t.pos1 = s.pos1 ∧ t.pos2 = s.pos2 ∧ t.bot2 = s.bot2 ∧
      t.puts = s.puts ++ if wanted then [line] else [] := by
  cases wanted with
  | false => exact ⟨s, rfl, rfl, rfl, rfl, rfl, rfl, (List.append_nil _).symm⟩
  | true => exact ⟨s.put line, rfl, rfl, rfl, rfl, rfl, rfl, rfl⟩

/-- A line of the second file whose key no line of the first has. -/
theorem loop_right (here : At o files xs (y :: ys) s) (wanted : xs = [] → o.a1 ∨ o.a2)
    (below : ∀ x xs', xs = x :: xs' → o.key2 y < o.key1 x) :
    ∃ s', At o files xs ys s' ∧ s'.puts = s.puts ++ (if o.a2 then [.right y] else []) ∧
      Continues o files s s' := by
  have first : s.ppi2 = y := here.at2.ppi2
  obtain ⟨some₂, behind⟩ := here.at2.next y ys rfl
  have goes : s.two ∨ (o.a1 ∨ o.a2) ∧ (s.ppi1 ≠ [] ∨ s.ppi2 ≠ []) := by
    cases xs with
    | nil => exact .inr ⟨wanted rfl, .inr (first ▸ some₂)⟩
    | cons x xs =>
        have front : s.ppi1 = x := here.at1.ppi1
        exact .inl ⟨front ▸ (here.at1.next x xs rfl).1, first ▸ some₂⟩
  have high : (s.two ∧ 0 < s.comp o) ∨ s.ppi1 = [] := by
    cases xs with
    | nil => exact .inr here.at1.ppi1
    | cons x xs =>
        have front : s.ppi1 = x := here.at1.ppi1
        exact .inl ⟨⟨front ▸ (here.at1.next x xs rfl).1, first ▸ some₂⟩,
          (comp_at here).2.2.mpr (below x xs rfl)⟩
  obtain ⟨t, same, ppi1, -, pos1, pos2, -, puts⟩ := put_if_spec s o.a2 (.right s.ppi2)
  obtain ⟨n, read, at2⟩ := get2_spec (s := { t with bot2 := t.pos2 }) (pos2 ▸ behind)
  refine ⟨{ t with bot2 := t.pos2, ppi2 := ys.headD [], pos2 := t.pos2 + n }, ⟨?_, at2⟩,
    first ▸ puts, fun s'' settled => settled.succ fun fuel => ?_⟩
  · exact ⟨ppi1.trans here.at1.ppi1, pos1 ▸ here.at1.next, here.at1.clean⟩
  · rw [State.loop, if_pos goes, if_pos high]
    dsimp only
    rw [same, read]
    rfl

/-- A line of the first file whose key no line of the second has. -/
theorem loop_left (here : At o files (x :: xs) ys s) (wanted : ys = [] → o.a1 ∨ o.a2)
    (below : ∀ y ys', ys = y :: ys' → o.key1 x < o.key2 y) :
    ∃ s', At o files xs ys s' ∧ s'.puts = s.puts ++ (if o.a1 then [.left x] else []) ∧
      Continues o files s s' := by
  have front : s.ppi1 = x := here.at1.ppi1
  obtain ⟨some₁, behind⟩ := here.at1.next x xs rfl
  have goes : s.two ∨ (o.a1 ∨ o.a2) ∧ (s.ppi1 ≠ [] ∨ s.ppi2 ≠ []) := by
    cases ys with
    | nil => exact .inr ⟨wanted rfl, .inl (front ▸ some₁)⟩
    | cons y ys =>
        have first : s.ppi2 = y := here.at2.ppi2
        exact .inl ⟨front ▸ some₁, first ▸ (here.at2.next y ys rfl).1⟩
  have notHigh : ¬((s.two ∧ 0 < s.comp o) ∨ s.ppi1 = []) := by
    rintro (⟨two, high⟩ | none)
    · cases ys with
      | nil => exact two.2 here.at2.ppi2
      | cons y ys => exact lt_asymm (below y ys rfl) ((comp_at here).2.2.mp high)
    · exact some₁ (front.symm.trans none)
  have low : (s.two ∧ s.comp o < 0) ∨ s.ppi2 = [] := by
    cases ys with
    | nil => exact .inr here.at2.ppi2
    | cons y ys =>
        have first : s.ppi2 = y := here.at2.ppi2
        exact .inl ⟨⟨front ▸ some₁, first ▸ (here.at2.next y ys rfl).1⟩,
          (comp_at here).1.mpr (below y ys rfl)⟩
  obtain ⟨t, same, -, ppi2, pos1, pos2, bot2, puts⟩ := put_if_spec s o.a1 (.left s.ppi1)
  obtain ⟨n, read, at1⟩ := get1_spec (s := t) (pos1 ▸ behind)
  refine ⟨{ t with ppi1 := xs.headD [], pos1 := t.pos1 + n }, ⟨at1, ?_⟩, front ▸ puts,
    fun s'' settled => settled.succ fun fuel => ?_⟩
  · exact ⟨bot2 ▸ here.at2.reads, ppi2.trans here.at2.ppi2, pos2 ▸ here.at2.next⟩
  · rw [State.loop, if_pos goes, if_neg notHigh, if_pos low]
    dsimp only
    rw [same, read]
    rfl

/-- A group of lines of both files that have one key. -/
theorem loop_group {gx dx g d : List (List Field)} {k : List ℕ}
    (here : At o files (gx ++ dx) (g ++ d) s) (some₁ : gx ≠ []) (some₂ : g ≠ [])
    (same₁ : ∀ x ∈ gx, o.key1 x = k) (same₂ : ∀ y ∈ g, o.key2 y = k)
    (above₁ : ∀ x dx', dx = x :: dx' → k < o.key1 x)
    (above₂ : ∀ y d', d = y :: d' → k < o.key2 y) :
    ∃ s', At o files dx d s' ∧ s'.puts = s.puts ++ (gx.flatMap fun x => g.map (.both x)) ∧
      Continues o files s s' := by
  obtain ⟨x, gx, rfl⟩ := List.exists_cons_of_ne_nil some₁
  obtain ⟨y, g, rfl⟩ := List.exists_cons_of_ne_nil some₂
  have front : s.ppi1 = x := here.at1.ppi1
  have first : s.ppi2 = y := here.at2.ppi2
  obtain ⟨line₁, behind₁⟩ := here.at1.next x (gx ++ dx) rfl
  obtain ⟨line₂, -⟩ := here.at2.next y (g ++ d) rfl
  have two : s.two := ⟨front ▸ line₁, first ▸ line₂⟩
  have keys : o.key2 y = o.key1 x :=
    (same₂ y List.mem_cons_self).trans (same₁ x List.mem_cons_self).symm
  have zero : s.comp o = 0 := (comp_at here).2.1.mpr keys
  have notHigh : ¬((s.two ∧ 0 < s.comp o) ∨ s.ppi1 = []) := by
    rintro (⟨-, high⟩ | none)
    · omega
    · exact two.1 none
  have notLow : ¬((s.two ∧ s.comp o < 0) ∨ s.ppi2 = []) := by
    rintro (⟨-, low⟩ | none)
    · omega
    · exact two.2 none
  -- the first line goes with the group, which is then read again with the next line
  have key₁ : o.key1 s.ppi1 = k := front ▸ same₁ x List.mem_cons_self
  obtain ⟨s₁, settled₁, puts₁, -, pos1, bot2, top⟩ := matching_spec here.at2
    (front ▸ here.at1.clean x List.mem_cons_self) (fun z mem => (same₂ z mem).trans key₁.symm)
    (fun z d' behind => key₁ ▸ ne_of_gt (above₂ z d' behind))
    fun none => absurd none (List.cons_ne_nil y g)
  obtain ⟨n, read₂, again⟩ := get2_spec (s := s₁.fseek s₁.bot2) (bot2 ▸ here.at2.reads)
  obtain ⟨m, read₁, next⟩ := get1_spec (s := { s₁.fseek s₁.bot2 with
    ppi2 := (y :: g ++ d).headD [], pos2 := (s₁.fseek s₁.bot2).pos2 + n }) (pos1 ▸ behind₁)
  obtain ⟨s₂, settled₂, at1, at2, puts₂⟩ := others_spec next
    ⟨again.reads, again.ppi2, again.next⟩ top some₂
    (fun z mem => same₁ z (List.mem_cons_of_mem x mem)) same₂ above₁ above₂
  refine ⟨s₂, ⟨at1, at2⟩, ?_, fun s'' settled => ?_⟩
  · rw [puts₂]
    simp [State.fseek, puts₁, front]
  · have rest := settled₂.bind (fun fuel t => t.loop o files fuel) settled
    refine (settled₁.bind (fun fuel t => do
      let t ← (t.fseek t.bot2).get2 o files
      let t ← t.get1 o files
      let t ← t.others o files fuel
      t.loop o files fuel) ?_).succ fun fuel => ?_
    · refine rest.congr fun fuel => ?_
      dsimp only
      rw [read₂]
      dsimp only [bind, Except.bind] at read₁ ⊢
      rw [read₁]
    · rw [State.loop, if_pos (.inl two), if_neg notHigh, if_neg notLow]

/-! ## The whole loop -/

/-- The keys of the lines go up. -/
def Ordered (key : List Field → List ℕ) (ls : List (List Field)) : Prop :=
  ls.Pairwise fun l l' => key l ≤ key l'

theorem Ordered.above {key : List Field → List ℕ} (ordered : Ordered key (x :: xs)) {k : List ℕ}
    (above : k < key x) : ∀ l ∈ x :: xs, k < key l := by
  intro l mem
  rcases List.mem_cons.mp mem with rfl | mem
  · exact above
  · exact lt_of_lt_of_le above ((List.pairwise_cons.mp ordered).1 l mem)

/-- A line of the second file comes before all that the files have left. -/
theorem below_right (ordered : Ordered o.key2 (y :: ys))
    (below : ∀ x ∈ xs, o.key2 y < o.key1 x) : KeysBelow o.key1 o.key2 [] [y] xs ys where
  lefts := by simp
  rights := by simpa using (List.pairwise_cons.mp ordered).1
  forth := by simp
  back := by simpa using below

theorem below_left (ordered : Ordered o.key1 (x :: xs))
    (below : ∀ y ∈ ys, o.key1 x < o.key2 y) : KeysBelow o.key1 o.key2 [x] [] xs ys where
  lefts := by simpa using (List.pairwise_cons.mp ordered).1
  rights := by simp
  forth := by simpa using below
  back := by simp

/-- A group of lines begins an ordered list. -/
theorem Ordered.group {key : List Field → List ℕ} (ordered : Ordered key (x :: xs)) :
    ∃ g d, xs = g ++ d ∧ (∀ l ∈ x :: g, key l = key x) ∧ ∀ l ∈ d, key x < key l := by
  induction xs with
  | nil => exact ⟨[], [], rfl, by simp, by simp⟩
  | cons l ls ih =>
      obtain ⟨first, rest⟩ := List.pairwise_cons.mp ordered
      by_cases same : key l = key x
      · obtain ⟨g, d, all, equal, above⟩ := ih <| List.pairwise_cons.mpr
          ⟨fun l' mem => first l' (List.mem_cons_of_mem l mem), rest.of_cons⟩
        refine ⟨l :: g, d, by rw [all]; rfl, fun l' mem => ?_, above⟩
        rcases List.mem_cons.mp mem with rfl | mem
        · rfl
        · rcases List.mem_cons.mp mem with rfl | mem
          · exact same
          · exact equal l' (List.mem_cons_of_mem x mem)
      · refine ⟨[], l :: ls, rfl, by simp, fun l' mem => ?_⟩
        have above : key x < key l := lt_of_le_of_ne (first l List.mem_cons_self) (Ne.symm same)
        exact Ordered.above rest above l' mem

/-- The loop ends, and has put out a join. -/
def Done (o : Options) (files : Files) (xs ys : List (List Field)) (s : State) : Prop :=
  ∃ s' puts, Settles (fun fuel => s.loop o files fuel) s' ∧ s'.puts = s.puts ++ puts ∧
    Joins o.key1 o.key2 o.a1 o.a2 xs ys puts

/-- A turn puts out the join of the lines it takes, and the rest of the loop that of the others. -/
theorem Done.turn {s' : State} {xs' ys' : List (List Field)}
    {puts : List (Put (List Field) (List Field))} (done : Done o files xs' ys' s')
    (continues : Continues o files s s') (more : s'.puts = s.puts ++ puts)
    (joins : Joins o.key1 o.key2 o.a1 o.a2 xs ys puts)
    (below : KeysBelow o.key1 o.key2 xs ys xs' ys') : Done o files (xs ++ xs') (ys ++ ys') s := by
  obtain ⟨s'', puts', settled, all, joins'⟩ := done
  exact ⟨s'', puts ++ puts', continues s'' settled, by rw [all, more, List.append_assoc],
    joins.append joins' below⟩

/-- The loop stops where no file has a line, or one has none and no `-a` has been given. -/
theorem Done.stop {puts : List (Put (List Field) (List Field))} (here : At o files xs ys s)
    (last : xs = [] ∨ ys = []) (unwanted : o.a1 ∨ o.a2 → xs = [] ∧ ys = []) (nothing : puts = [])
    (joins : Joins o.key1 o.key2 o.a1 o.a2 xs ys puts) : Done o files xs ys s := by
  subst nothing
  refine ⟨s, [], (Settles.pure s).succ fun fuel => ?_, (List.append_nil _).symm, joins⟩
  have ends : ¬(s.two ∨ (o.a1 ∨ o.a2) ∧ (s.ppi1 ≠ [] ∨ s.ppi2 ≠ [])) := by
    rintro (⟨some₁, some₂⟩ | ⟨wanted, line⟩)
    · rcases last with rfl | rfl
      · exact some₁ here.at1.ppi1
      · exact some₂ here.at2.ppi2
    · obtain ⟨rfl, rfl⟩ := unwanted wanted
      rcases line with some₁ | some₂
      · exact some₁ here.at1.ppi1
      · exact some₂ here.at2.ppi2
  rw [State.loop, if_neg ends]

/-- The loop puts out the join of the lines it takes. -/
theorem loop_spec (here : At o files xs ys s) (ordered₁ : Ordered o.key1 xs)
    (ordered₂ : Ordered o.key2 ys) : Done o files xs ys s := by
  induction size : xs.length + ys.length using Nat.strongRecOn generalizing xs ys s with
  | _ size ih =>
      cases xs with
      | nil =>
          cases ys with
          | nil => exact .stop here (.inl rfl) (fun _ => ⟨rfl, rfl⟩) rfl (.nil _ _ _ _)
          | cons y ys =>
              by_cases wanted : o.a1 ∨ o.a2
              · obtain ⟨s', here', puts, continues⟩ := loop_right here (fun _ => wanted) (by simp)
                refine .turn (ih _ ?_ here' ordered₁ ordered₂.of_cons rfl) continues puts
                  (.right_only _ _ _ _ y) ?_
                · simp only [List.length_cons] at size
                  omega
                · exact below_right ordered₂ (by simp)
              · refine .stop here (.inl rfl) (fun also => absurd also wanted) ?_
                  (Joins.rights_only ordered₂)
                rw [if_neg fun also => wanted (.inr also)]
      | cons x xs =>
          cases ys with
          | nil =>
              by_cases wanted : o.a1 ∨ o.a2
              · obtain ⟨s', here', puts, continues⟩ := loop_left here (fun _ => wanted) (by simp)
                refine .turn (ih _ ?_ here' ordered₁.of_cons ordered₂ rfl) continues puts
                  (.left_only _ _ _ _ x) ?_
                · simp only [List.length_cons] at size
                  omega
                · exact below_left ordered₁ (by simp)
              · refine .stop here (.inr rfl) (fun also => absurd also wanted) ?_
                  (Joins.lefts_only ordered₁)
                rw [if_neg fun also => wanted (.inl also)]
          | cons y ys =>
              rcases lt_trichotomy (o.key1 x) (o.key2 y) with low | same | high
              · obtain ⟨s', here', puts, continues⟩ := loop_left here (by simp)
                  fun _ _ first => (List.cons.inj first).1 ▸ low
                refine .turn (ih _ ?_ here' ordered₁.of_cons ordered₂ rfl) continues puts
                  (.left_only _ _ _ _ x) ?_
                · simp only [List.length_cons] at size ⊢
                  omega
                · exact below_left ordered₁ (ordered₂.above low)
              · obtain ⟨gx, dx, rfl, one₁, above₁⟩ := Ordered.group ordered₁
                obtain ⟨g, d, rfl, one₂, above₂⟩ := Ordered.group ordered₂
                rw [← same] at one₂ above₂
                obtain ⟨s', here', puts, continues⟩ := loop_group
                  (show At o files (x :: gx ++ dx) (y :: g ++ d) s from here) (List.cons_ne_nil _ _)
                  (List.cons_ne_nil _ _) one₁ one₂
                  (fun z _ first => above₁ z (first ▸ List.mem_cons_self))
                  fun z _ first => above₂ z (first ▸ List.mem_cons_self)
                have rest₁ : Ordered o.key1 dx := (List.pairwise_append.mp ordered₁.of_cons).2.1
                have rest₂ : Ordered o.key2 d := (List.pairwise_append.mp ordered₂.of_cons).2.1
                have group : Joins o.key1 o.key2 o.a1 o.a2 (x :: gx) (y :: g) _ :=
                  .group one₁ one₂ (List.cons_ne_nil _ _) (List.cons_ne_nil _ _)
                refine show Done o files (x :: gx ++ dx) (y :: g ++ d) s from
                  .turn (ih _ ?_ here' rest₁ rest₂ rfl) continues puts group ?_
                · simp only [List.length_cons, List.length_append] at size
                  omega
                · exact {
                    lefts := fun z mem z' mem' => one₁ z mem ▸ (above₁ z' mem').le
                    rights := fun z mem z' mem' => one₂ z mem ▸ (above₂ z' mem').le
                    forth := fun z mem z' mem' => one₁ z mem ▸ above₂ z' mem'
                    back := fun z mem z' mem' => one₂ z mem ▸ above₁ z' mem' }
              · obtain ⟨s', here', puts, continues⟩ := loop_right here (by simp)
                  fun _ _ first => (List.cons.inj first).1 ▸ high
                refine .turn (ih _ ?_ here' ordered₁ ordered₂.of_cons rfl) continues puts
                  (.right_only _ _ _ _ y) ?_
                · simp only [List.length_cons] at size ⊢
                  omega
                · exact below_right ordered₂ (ordered₁.above high)

/-! ## The files -/

/-- A file that `join` can read, sorted on a field. -/
structure Sorted (o : Options) (j : ℕ) (file : List UInt8) : Prop where
  fits : Fits o file
  order : (records o file).Pairwise fun l l' => cmp (key j l) (key j l') ≤ 0

/-- The lines from the first one without fields on. -/
def dead (l : List (List Field)) : List (List Field) := l.dropWhile fun fields => fields ≠ []

theorem live_append_dead (l : List (List Field)) : live l ++ dead l = l :=
  List.takeWhile_append_dropWhile

theorem Sorted.ordered {j : ℕ} {file : List UInt8} (sorted : Sorted o j file) :
    Ordered (fun l => code (key j l)) (live (records o file)) := by
  have all : Ordered (fun l => code (key j l)) (records o file) := by
    refine sorted.order.imp_of_mem fun mem mem' order => ?_
    obtain ⟨less, same⟩ := cmp_spec (records_clean mem j).1 (records_clean mem' j).1
    rcases lt_or_eq_of_le order with below | zero
    · exact (less.mp below).le
    · exact (same.mp zero).le
  exact all.sublist (List.takeWhile_sublist _)

/-- `join` ends, and joins the lines that come before the first one without fields. -/
theorem join_spec (sorted₁ : Sorted o o.j1 files.f1) (sorted₂ : Sorted o o.j2 files.f2) :
    ∃ puts, Settles (fun fuel => join o files fuel) puts ∧
      Joins o.key1 o.key2 o.a1 o.a2 (live (records o files.f1))
          (live (records o files.f2)) puts := by
  have begin₁ : Reads o (files.f1.drop 0) (live (records o files.f1)) := ⟨sorted₁.fits, rfl⟩
  have begin₂ : Reads o (files.f2.drop 0) (live (records o files.f2)) := ⟨sorted₂.fits, rfl⟩
  obtain ⟨n, read₁, at1⟩ := get1_spec (s := ⟨[], [], 0, 0, 0, 0, []⟩) begin₁
  obtain ⟨m, read₂, at2⟩ := get2_spec (s := ⟨(live (records o files.f1)).headD [], [], 0 + n, 0, 0,
    0, []⟩) begin₂
  have here : At o files (live (records o files.f1)) (live (records o files.f2))
      ⟨(live (records o files.f1)).headD [], (live (records o files.f2)).headD [], 0 + n, 0 + m, 0,
        0, []⟩ := ⟨⟨at1.ppi1, at1.next, at1.clean⟩, at2⟩
  obtain ⟨s', puts, settled, all, joins⟩ := loop_spec here sorted₁.ordered sorted₂.ordered
  refine ⟨puts, ?_, joins⟩
  have ends : Settles (fun _ => (.ok s'.puts : Except Failure _)) puts := all ▸ .pure _
  refine (settled.bind (fun _ s => .ok s.puts) ends).congr fun fuel => ?_
  rw [join, read₁]
  dsimp only [bind, Except.bind] at read₂ ⊢
  rw [read₂]

/-- What is put out is the join of the two files. -/
def Computes (o : Options) (files : Files) : Prop :=
  ∃ puts, Settles (fun fuel => join o files fuel) puts ∧
    Joins o.key1 o.key2 o.a1 o.a2 (records o files.f1) (records o files.f2) puts

/-- No line from the first one without fields on has a partner, or is wanted without one. -/
structure NothingLost (o : Options) (files : Files) : Prop where
  lefts : ∀ x ∈ dead (records o files.f1), ∀ y ∈ records o files.f2, o.key2 y ≠ o.key1 x
  rights : ∀ y ∈ dead (records o files.f2), ∀ x ∈ records o files.f1, o.key1 x ≠ o.key2 y
  wanted₁ : o.a1 = true → dead (records o files.f1) = []
  wanted₂ : o.a2 = true → dead (records o files.f2) = []

/-- `join` ends for every two sorted files, and computes their join exactly when the lines that it
takes for the end of a file, and those behind them, do not belong to the join. -/
theorem computes_iff (sorted₁ : Sorted o o.j1 files.f1) (sorted₂ : Sorted o o.j2 files.f2) :
    (∃ puts, Settles (fun fuel => join o files fuel) puts) ∧
      (Computes o files ↔ NothingLost o files) := by
  obtain ⟨puts, settles, joins⟩ := join_spec sorted₁ sorted₂
  have extend := joins.extend_iff (dead (records o files.f1)) (dead (records o files.f2))
  rw [live_append_dead, live_append_dead] at extend
  refine ⟨⟨puts, settles⟩, ?_⟩
  constructor
  · rintro ⟨puts', settles', whole⟩
    rw [settles'.unique settles] at whole
    obtain ⟨lefts, rights, wanted₁, wanted₂⟩ := extend.mp whole
    exact ⟨lefts, rights, wanted₁, wanted₂⟩
  · rintro ⟨lefts, rights, wanted₁, wanted₂⟩
    exact ⟨puts, settles, extend.mpr ⟨lefts, rights, wanted₁, wanted₂⟩⟩

/-- What the arguments set when only the files are given. -/
def Options.plain : Options where
  j1 := 0
  j2 := 0
  sep1 := 32
  sep2 := 9
  null := []
  olist := []
  a1 := false
  a2 := false

/-- Two files with a group of two lines each: `a b`, `a c` and `a d`, `a e`. -/
def Files.groups : Files where
  f1 := [97, 32, 98, 10, 97, 32, 99, 10]
  f2 := [97, 32, 100, 10, 97, 32, 101, 10]

theorem computes_iff_groups : Computes .plain .groups := by
  have sorted₁ : Sorted .plain 0 Files.groups.f1 :=
    ⟨by unfold Fits; decide +kernel, by decide +kernel⟩
  have sorted₂ : Sorted .plain 0 Files.groups.f2 :=
    ⟨by unfold Fits; decide +kernel, by decide +kernel⟩
  exact (computes_iff sorted₁ sorted₂).2.mpr
    ⟨by decide +kernel, by decide +kernel, by decide +kernel, by decide +kernel⟩

/-- A file that begins with a line without fields, which has the empty key, and one with a line
that has a partner behind it: an empty line and `a`, and `a`. -/
def Files.blank : Files where
  f1 := [10, 97, 10]
  f2 := [97, 10]

/-- The lines behind a line without fields are not joined. -/
theorem not_computes_blank : ¬∀ o files, Sorted o o.j1 files.f1 → Sorted o o.j2 files.f2 →
    Computes o files := by
  intro always
  have sorted₁ : Sorted .plain 0 Files.blank.f1 :=
    ⟨by unfold Fits; decide +kernel, by decide +kernel⟩
  have sorted₂ : Sorted .plain 0 Files.blank.f2 :=
    ⟨by unfold Fits; decide +kernel, by decide +kernel⟩
  obtain ⟨puts, settles, joins⟩ := join_spec sorted₁ sorted₂
  obtain ⟨puts', settles', whole⟩ := always .plain .blank sorted₁ sorted₂
  rw [settles'.unique settles] at whole
  have same := joins.pairs.symm.trans whole.pairs
  revert same
  decide +kernel

end UnixV7.Join
