import UnixV7.Library.Fuel
import UnixV7.Library.MergeJoin
import UnixV7.Cmd.Join.Input

/-!
# The loops of join

`main` and `output` of `join.c`. A group of lines of the second file is read once for every line
of the first that has its key, from the place in the file where it begins. A line without fields
is taken for the end of its file; what is put out is the join of what comes before.
-/

namespace UnixV7.Join

open Fuel

/-- The two files. -/
structure Files where
  f1 : List UInt8
  f2 : List UInt8

/-- The fields of the lines that have been read last, none at the end of a file, where reading has
got to, the places in the second file that are remembered, and what has been put out. -/
structure State where
  ppi1 : List Field
  ppi2 : List Field
  pos1 : ℕ
  pos2 : ℕ
  bot2 : ℕ
  top2 : ℕ
  puts : List (Put (List Field) (List Field))

/-- The fields that are put out of the line of the first file. -/
def fields1 : Put (List Field) (List Field) → List Field
  | .both ppi1 _ => ppi1
  | .left ppi1 => ppi1
  | .right _ => []

def fields2 : Put (List Field) (List Field) → List Field
  | .both _ ppi2 => ppi2
  | .left _ => []
  | .right ppi2 => ppi2

/-- `output`: the text for a pair of lines, or one. A file that has none has no fields. -/
def Options.output (o : Options) (put : Put (List Field) (List Field)) : List UInt8 :=
  let ppi1 := fields1 put
  let ppi2 := fields2 put
  let others (j : ℕ) (ppi : List Field) : List UInt8 :=
    (ppi.eraseIdx j).flatMap fun f => o.sep1 :: f
  if o.olist = [] then
    (if ppi1 ≠ [] then key o.j1 ppi1 else key o.j2 ppi2) ++ others o.j1 ppi1 ++ others o.j2 ppi2 ++
      [10]
  else
    let text (item : Bool × ℕ) : Field :=
      let f := key item.2 (if item.1 then ppi2 else ppi1)
      if f = [] then o.null else f
    [o.sep1].intercalate (o.olist.map text) ++ [10]

namespace State

variable (o : Options) (files : Files)

/-- `comp()`. -/
def comp (s : State) : ℤ := cmp (key o.j1 s.ppi1) (key o.j2 s.ppi2)

/-- `get1()`. -/
def get1 (s : State) : Except Failure State := do
  let (ppi, n) ← o.input (files.f1.drop s.pos1)
  .ok { s with ppi1 := ppi, pos1 := s.pos1 + n }

/-- `get2()`. -/
def get2 (s : State) : Except Failure State := do
  let (ppi, n) ← o.input (files.f2.drop s.pos2)
  .ok { s with ppi2 := ppi, pos2 := s.pos2 + n }

/-- `fseek` in the second file. -/
def fseek (s : State) (offset : ℕ) : State := { s with pos2 := offset }

def put (s : State) (line : Put (List Field) (List Field)) : State :=
  { s with puts := s.puts ++ [line] }

/-- There are lines of both files. -/
def two (s : State) : Prop := s.ppi1 ≠ [] ∧ s.ppi2 ≠ []

instance (s : State) : Decidable s.two := inferInstanceAs (Decidable (_ ∧ _))

/-- The loop over the group for the first line that has its key. -/
def matching : ℕ → State → Except Failure State
  | 0, _ => .error .fuel
  | fuel + 1, s =>
      if s.ppi2 ≠ [] ∧ s.comp o = 0 then do
        let s := s.put (.both s.ppi1 s.ppi2)
        let s ← { s with top2 := s.pos2 }.get2 o files
        matching fuel s
      else
        .ok s

/-- The loop over the group for the other lines that have its key. -/
def others : ℕ → State → Except Failure State
  | 0, _ => .error .fuel
  | fuel + 1, s =>
      if s.two ∧ s.comp o = 0 then do
        let s ← (s.put (.both s.ppi1 s.ppi2)).get2 o files
        others fuel s
      else if (s.two ∧ s.comp o < 0) ∨ s.ppi2 = [] then do
        let s ← (s.fseek s.bot2).get2 o files
        let s ← s.get1 o files
        others fuel s
      else
        { s.fseek s.top2 with bot2 := s.top2 }.get2 o files

/-- The loop of `main`. -/
def loop : ℕ → State → Except Failure State
  | 0, _ => .error .fuel
  | fuel + 1, s =>
      if s.two ∨ (o.a1 ∨ o.a2) ∧ (s.ppi1 ≠ [] ∨ s.ppi2 ≠ []) then
        if (s.two ∧ 0 < s.comp o) ∨ s.ppi1 = [] then do
          let s := if o.a2 then s.put (.right s.ppi2) else s
          let s ← { s with bot2 := s.pos2 }.get2 o files
          loop fuel s
        else if (s.two ∧ s.comp o < 0) ∨ s.ppi2 = [] then do
          let s := if o.a1 then s.put (.left s.ppi1) else s
          let s ← s.get1 o files
          loop fuel s
        else do
          let s ← s.matching o files fuel
          let s ← (s.fseek s.bot2).get2 o files
          let s ← s.get1 o files
          let s ← s.others o files fuel
          loop fuel s
      else
        .ok s

end State

/-- `main`, with the arguments read and the files opened: what is put out. -/
def join (o : Options) (files : Files) (fuel : ℕ) :
    Except Failure (List (Put (List Field) (List Field))) := do
  let s ← State.get1 o files ⟨[], [], 0, 0, 0, 0, []⟩
  let s ← { s with bot2 := s.pos2 }.get2 o files
  let s ← s.loop o files fuel
  .ok s.puts

theorem mem_intersperse {α : Type*} {a separator : α} {l : List α}
    (mem : a ∈ l.intersperse separator) : a ∈ l ∨ a = separator := by
  induction l with
  | nil => exact absurd mem List.not_mem_nil
  | cons b l ih =>
      cases l with
      | nil => exact .inl mem
      | cons c l =>
          rw [List.intersperse_cons_cons] at mem
          rcases List.mem_cons.mp mem with rfl | mem
          · exact .inl List.mem_cons_self
          · rcases List.mem_cons.mp mem with same | mem
            · exact .inr same
            · exact (ih mem).imp_left (List.mem_cons_of_mem b)

/-- The text that is put out for a pair, or for a line without a partner, is one line. -/
theorem output_line {o : Options} {put : Put (List Field) (List Field)} (separator : o.sep1 ≠ 10)
    (null : 10 ∉ o.null) (clean₁ : ∀ f ∈ fields1 put, 10 ∉ f) (clean₂ : ∀ f ∈ fields2 put, 10 ∉ f) :
    ∃ text, o.output put = text ++ [10] ∧ 10 ∉ text := by
  have field (j : ℕ) {ppi : List Field} (clean : ∀ f ∈ ppi, 10 ∉ f) : 10 ∉ key j ppi := by
    rw [key, List.getD_eq_getElem?_getD]
    cases here : ppi[j]? with
    | none => simp
    | some f => exact clean f (List.mem_of_getElem? here)
  have others (j : ℕ) {ppi : List Field} (clean : ∀ f ∈ ppi, 10 ∉ f) :
      10 ∉ (ppi.eraseIdx j).flatMap fun f => o.sep1 :: f := by
    intro mem
    obtain ⟨f, inside, mem⟩ := List.mem_flatMap.mp mem
    rcases List.mem_cons.mp mem with same | mem
    · exact separator same.symm
    · exact clean f (List.mem_of_mem_eraseIdx inside) mem
  rw [Options.output]
  split
  · refine ⟨_, rfl, ?_⟩
    simp only [List.mem_append, not_or]
    refine ⟨⟨?_, others o.j1 clean₁⟩, others o.j2 clean₂⟩
    split
    · exact field o.j1 clean₁
    · exact field o.j2 clean₂
  · refine ⟨_, rfl, fun mem => ?_⟩
    obtain ⟨part, inside, mem⟩ := List.mem_flatten.mp mem
    rcases mem_intersperse inside with mapped | rfl
    · obtain ⟨item, -, rfl⟩ := List.mem_map.mp mapped
      dsimp only at mem
      split_ifs at mem
      all_goals first
        | exact null mem
        | exact field _ clean₁ mem
        | exact field _ clean₂ mem
    · exact separator (List.mem_singleton.mp mem).symm

/-! ## Where reading has got to -/

/-- The lines before the first one without fields. -/
def live (l : List (List Field)) : List (List Field) := l.takeWhile fun fields => fields ≠ []

/-- The keys of the lines of the files. -/
def Options.key1 (o : Options) (fields : List Field) : List ℕ := code (key o.j1 fields)

def Options.key2 (o : Options) (fields : List Field) : List ℕ := code (key o.j2 fields)

/-- The rest of a file, of whose lines `ls` come before the first one without fields. -/
structure Reads (o : Options) (rest : List UInt8) (ls : List (List Field)) : Prop where
  fits : Fits o rest
  before : live (records o rest) = ls

variable {o : Options} {files : Files} {s : State} {xs ys : List (List Field)}
  {rest : List UInt8} {p q : ℕ} {x y : List Field}

/-- One line is read. -/
theorem Reads.input (reads : Reads o rest xs) : ∃ n, o.input rest = .ok (xs.headD [], n) ∧
    ∀ x xs', xs = x :: xs' → x ≠ [] ∧ Reads o (rest.drop n) xs' := by
  obtain ⟨fits, rfl⟩ := reads
  rcases input_spec fits with ⟨last, input⟩ | ⟨fields, n, input, fits', all⟩
  · rw [last]
    exact ⟨0, input, fun x xs' same => nomatch same⟩
  · refine ⟨n, ?_, fun x xs' same => ?_⟩
    · rw [input, all, live]
      by_cases blank : fields = [] <;> simp [blank]
    · rw [all, live, List.takeWhile_cons] at same
      split at same
      · next some =>
          obtain ⟨rfl, rfl⟩ := List.cons.inj same
          exact ⟨by simpa using some, fits', rfl⟩
      · simp at same

/-- The second file has been read up to the line at `p`, the first of `ys` if there are any. -/
structure At2 (o : Options) (files : Files) (p : ℕ) (ys : List (List Field)) (s : State) :
    Prop where
  reads : Reads o (files.f2.drop p) ys
  ppi2 : s.ppi2 = ys.headD []
  next : ∀ y ys', ys = y :: ys' → y ≠ [] ∧ Reads o (files.f2.drop s.pos2) ys'

/-- The first file has been read up to the first line of `xs`, if there are any. -/
structure At1 (o : Options) (files : Files) (xs : List (List Field)) (s : State) : Prop where
  ppi1 : s.ppi1 = xs.headD []
  next : ∀ x xs', xs = x :: xs' → x ≠ [] ∧ Reads o (files.f1.drop s.pos1) xs'
  clean : ∀ x ∈ xs, 0 ∉ key o.j1 x

theorem get2_spec (reads : Reads o (files.f2.drop s.pos2) ys) :
    ∃ n, s.get2 o files = .ok { s with ppi2 := ys.headD [], pos2 := s.pos2 + n } ∧
      At2 o files s.pos2 ys { s with ppi2 := ys.headD [], pos2 := s.pos2 + n } := by
  obtain ⟨n, input, next⟩ := reads.input
  refine ⟨n, by rw [State.get2, input]; rfl, reads, rfl, fun y ys' same => ?_⟩
  obtain ⟨some, behind⟩ := next y ys' same
  exact ⟨some, by rwa [List.drop_drop] at behind⟩

theorem Reads.clean (reads : Reads o rest xs) (mem : x ∈ xs) (j : ℕ) : 0 ∉ key j x := by
  obtain ⟨-, rfl⟩ := reads
  exact (records_clean ((List.takeWhile_sublist _).mem mem) j).1

theorem get1_spec (reads : Reads o (files.f1.drop s.pos1) xs) :
    ∃ n, s.get1 o files = .ok { s with ppi1 := xs.headD [], pos1 := s.pos1 + n } ∧
      At1 o files xs { s with ppi1 := xs.headD [], pos1 := s.pos1 + n } := by
  obtain ⟨n, input, next⟩ := reads.input
  refine ⟨n, by rw [State.get1, input]; rfl, rfl, fun x xs' same => ?_, fun x mem =>
    reads.clean mem o.j1⟩
  obtain ⟨some, behind⟩ := next x xs' same
  exact ⟨some, by rwa [List.drop_drop] at behind⟩

/-- `comp()` compares the keys of the lines read last. -/
theorem comp_spec (clean₁ : 0 ∉ key o.j1 s.ppi1) (clean₂ : 0 ∉ key o.j2 s.ppi2) :
    (s.comp o < 0 ↔ o.key1 s.ppi1 < o.key2 s.ppi2) ∧
      (s.comp o = 0 ↔ o.key2 s.ppi2 = o.key1 s.ppi1) ∧
      (0 < s.comp o ↔ o.key2 s.ppi2 < o.key1 s.ppi1) := by
  obtain ⟨less, same⟩ := cmp_spec clean₁ clean₂
  have more := lt_trichotomy (o.key1 s.ppi1) (o.key2 s.ppi2)
  refine ⟨less, same.trans eq_comm, ?_⟩
  constructor
  · intro above
    rcases more with low | equal | high
    · exact absurd (less.mpr low) (by rw [State.comp] at above; omega)
    · exact absurd (same.mpr equal) (by rw [State.comp] at above; omega)
    · exact high
  · intro high
    have notLess : ¬s.comp o < 0 := fun below => lt_asymm high (less.mp below)
    have notSame : s.comp o ≠ 0 := fun zero => ne_of_gt high (same.mp zero)
    omega

/-! ## A group -/

variable {g d : List (List Field)}

/-- The first line that has the key of a group goes with every line of it. -/
theorem matching_spec (here : At2 o files p (g ++ d) s) (clean : 0 ∉ key o.j1 s.ppi1)
    (same : ∀ y ∈ g, o.key2 y = o.key1 s.ppi1)
    (other : ∀ y d', d = y :: d' → o.key2 y ≠ o.key1 s.ppi1)
    (top : g = [] → Reads o (files.f2.drop s.top2) d) :
    ∃ s', Settles (fun fuel => s.matching o files fuel) s' ∧
      s'.puts = s.puts ++ g.map (.both s.ppi1) ∧ s'.ppi1 = s.ppi1 ∧ s'.pos1 = s.pos1 ∧
      s'.bot2 = s.bot2 ∧ Reads o (files.f2.drop s'.top2) d := by
  induction g generalizing s p with
  | nil =>
      have stop : ¬(s.ppi2 ≠ [] ∧ s.comp o = 0) := by
        rintro ⟨some, equal⟩
        cases d with
        | nil => exact some here.ppi2
        | cons y d =>
            have first : s.ppi2 = y := here.ppi2
            have clean₂ := here.reads.clean List.mem_cons_self o.j2
            rw [← first] at clean₂
            exact other y d rfl (first ▸ (comp_spec clean clean₂).2.1.mp equal)
      refine ⟨s, (Settles.pure s).succ fun fuel => ?_, (List.append_nil _).symm, rfl, rfl, rfl,
        top rfl⟩
      rw [State.matching, if_neg stop]
  | cons y g ih =>
      have first : s.ppi2 = y := here.ppi2
      obtain ⟨some, behind⟩ := here.next y (g ++ d) rfl
      have clean₂ : 0 ∉ key o.j2 s.ppi2 := first ▸ here.reads.clean List.mem_cons_self o.j2
      have equal := (comp_spec clean clean₂).2.1.mpr (first ▸ same y List.mem_cons_self)
      obtain ⟨n, read, here'⟩ := get2_spec
        (s := { s.put (.both s.ppi1 s.ppi2) with top2 := s.pos2 }) behind
      obtain ⟨s', settles, puts, ppi1, pos1, bot2, top2⟩ := ih here' clean
        (fun y mem => same y (List.mem_cons_of_mem _ mem)) other fun last => by
          rw [last] at behind
          exact behind
      refine ⟨s', settles.succ fun fuel => ?_, ?_, ppi1, pos1, bot2, top2⟩
      · rw [State.matching, if_pos ⟨first ▸ some, equal⟩]
        dsimp only [State.put] at read ⊢
        rw [read]
        rfl
      · rw [puts]
        simp [State.put, first]

/-- One line of the first file goes with the rest of a group. -/
theorem others_group (here : At2 o files p (g ++ d) s) (some : s.ppi1 ≠ [])
    (clean : 0 ∉ key o.j1 s.ppi1) (same : ∀ y ∈ g, o.key2 y = o.key1 s.ppi1) :
    ∃ s' p', At2 o files p' d s' ∧ s'.puts = s.puts ++ g.map (.both s.ppi1) ∧
      s'.ppi1 = s.ppi1 ∧ s'.pos1 = s.pos1 ∧ s'.bot2 = s.bot2 ∧ s'.top2 = s.top2 ∧
      ∀ s'', Settles (fun fuel => s'.others o files fuel) s'' →
        Settles (fun fuel => s.others o files fuel) s'' := by
  induction g generalizing s p with
  | nil => exact ⟨s, p, here, (List.append_nil _).symm, rfl, rfl, rfl, rfl, fun _ => id⟩
  | cons y g ih =>
      have first : s.ppi2 = y := here.ppi2
      obtain ⟨some₂, behind⟩ := here.next y (g ++ d) rfl
      have clean₂ : 0 ∉ key o.j2 s.ppi2 := first ▸ here.reads.clean List.mem_cons_self o.j2
      have equal := (comp_spec clean clean₂).2.1.mpr (first ▸ same y List.mem_cons_self)
      obtain ⟨n, read, here'⟩ := get2_spec (s := s.put (.both s.ppi1 s.ppi2)) behind
      obtain ⟨s', p', at2, puts, ppi1, pos1, bot2, top2, settles⟩ := ih here' some clean
        fun y mem => same y (List.mem_cons_of_mem _ mem)
      refine ⟨s', p', at2, ?_, ppi1, pos1, bot2, top2, fun s'' settled => ?_⟩
      · rw [puts]
        simp [State.put, first]
      · refine (settles s'' settled).succ fun fuel => ?_
        rw [State.others, if_pos ⟨⟨some, first ▸ some₂⟩, equal⟩, read]
        rfl

/-- The other lines that have the key of a group go with every line of it, in turn. Then both
files are at the first line behind the group. -/
theorem others_spec {gx dx : List (List Field)} {k : List ℕ} (at1 : At1 o files (gx ++ dx) s)
    (at2 : At2 o files s.bot2 (g ++ d) s) (top : Reads o (files.f2.drop s.top2) d) (some : g ≠ [])
    (same₁ : ∀ x ∈ gx, o.key1 x = k) (same₂ : ∀ y ∈ g, o.key2 y = k)
    (above₁ : ∀ x dx', dx = x :: dx' → k < o.key1 x)
    (above₂ : ∀ y d', d = y :: d' → k < o.key2 y) :
    ∃ s', Settles (fun fuel => s.others o files fuel) s' ∧ At1 o files dx s' ∧
      At2 o files s'.bot2 d s' ∧ s'.puts = s.puts ++ gx.flatMap fun x => g.map (.both x) := by
  induction gx generalizing s with
  | nil =>
      obtain ⟨y, g', rfl⟩ := List.exists_cons_of_ne_nil some
      have first : s.ppi2 = y := at2.ppi2
      have some₂ : s.ppi2 ≠ [] := first ▸ (at2.next y _ rfl).1
      have clean₂ : 0 ∉ key o.j2 s.ppi2 := first ▸ at2.reads.clean List.mem_cons_self o.j2
      have high : s.two → 0 < s.comp o := by
        rintro ⟨some₁, -⟩
        cases dx with
        | nil => exact absurd at1.ppi1 some₁
        | cons x dx =>
            have front : s.ppi1 = x := at1.ppi1
            apply (comp_spec (front ▸ at1.clean x List.mem_cons_self) clean₂).2.2.mpr
            rw [front, first, same₂ y List.mem_cons_self]
            exact above₁ x dx rfl
      obtain ⟨n, read, after⟩ := get2_spec (s := { s.fseek s.top2 with bot2 := s.top2 }) top
      refine ⟨{ s.fseek s.top2 with bot2 := s.top2, ppi2 := d.headD [], pos2 := s.top2 + n },
        (Settles.pure _).succ fun fuel => ?_, ⟨at1.ppi1, at1.next, at1.clean⟩, after,
        (List.append_nil _).symm⟩
      have notSame : ¬(s.two ∧ s.comp o = 0) := fun ⟨two, zero⟩ => by
        have := high two
        omega
      have notBelow : ¬((s.two ∧ s.comp o < 0) ∨ s.ppi2 = []) := by
        rintro (⟨two, below⟩ | none)
        · have := high two
          omega
        · exact some₂ none
      rw [State.others, if_neg notSame, if_neg notBelow, read]
      rfl
  | cons x gx ih =>
      have front : s.ppi1 = x := at1.ppi1
      obtain ⟨some₁, behind₁⟩ := at1.next x (gx ++ dx) rfl
      have clean₁ : 0 ∉ key o.j1 s.ppi1 := front ▸ at1.clean x List.mem_cons_self
      have key₁ : o.key1 s.ppi1 = k := front ▸ same₁ x List.mem_cons_self
      obtain ⟨s₁, p', behind₂, puts₁, ppi1, pos1, bot2, top2, settles⟩ := others_group at2
        (front ▸ some₁) clean₁ fun y mem => (same₂ y mem).trans key₁.symm
      -- the group has been read: the first line behind it has a greater key, if there is one
      have high : s₁.two → s₁.comp o < 0 := by
        rintro ⟨-, some₂⟩
        cases d with
        | nil => exact absurd behind₂.ppi2 some₂
        | cons y d =>
            have first : s₁.ppi2 = y := behind₂.ppi2
            have clean₂ := behind₂.reads.clean List.mem_cons_self o.j2
            apply (comp_spec (ppi1.symm ▸ clean₁) (first.symm ▸ clean₂)).1.mpr
            rw [first, ppi1, key₁]
            exact above₂ y d rfl
      obtain ⟨n, read₂, again⟩ := get2_spec (s := s₁.fseek s₁.bot2) (bot2 ▸ at2.reads)
      obtain ⟨m, read₁, next⟩ := get1_spec (s := { s₁.fseek s₁.bot2 with
        ppi2 := (g ++ d).headD [], pos2 := (s₁.fseek s₁.bot2).pos2 + n }) (pos1 ▸ behind₁)
      obtain ⟨s', settled, at1', at2', puts⟩ := ih next ⟨again.reads, again.ppi2, again.next⟩
        (top2 ▸ top) fun x mem => same₁ x (List.mem_cons_of_mem _ mem)
      refine ⟨s', settles s' (settled.succ fun fuel => ?_), at1', at2', ?_⟩
      · have notSame : ¬(s₁.two ∧ s₁.comp o = 0) := fun ⟨two, zero⟩ => by
          have := high two
          omega
        have below : (s₁.two ∧ s₁.comp o < 0) ∨ s₁.ppi2 = [] := by
          by_cases none : s₁.ppi2 = []
          · exact .inr none
          · have two : s₁.two := ⟨by rw [ppi1, front]; exact some₁, none⟩
            exact .inl ⟨two, high two⟩
        rw [State.others, if_neg notSame, if_pos below, read₂]
        dsimp only [bind, Except.bind] at read₁ ⊢
        rw [read₁]
      · rw [puts]
        simp [State.fseek, puts₁, front]

end UnixV7.Join
