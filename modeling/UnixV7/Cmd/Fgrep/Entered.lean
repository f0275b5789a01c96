import UnixV7.Cmd.Fgrep.Trie

/-!
# What cgotofn enters

Each word that ends in a newline is entered. The last word may end with the list itself: it is
entered too, unless it was there already as the beginning of a word, since `cgotofn` then returns
without a mark.
-/

namespace UnixV7

open Function

namespace Fgrep

/-- The result satisfies `post`, unless the tables overflow. -/
def Gives {α : Type} (r : Except Stop α) (post : α → Prop) : Prop :=
  match r with
  | .ok a => post a
  | .error e => e = .overflo

/-- The places of the trie begin a word, or `u`. -/
def Reached (kids : List UInt8 → List ℕ) (D : Set (List UInt8)) (u : List UInt8) : Prop :=
  ∀ v, kids v ≠ [] → v = [] ∨ (∃ w ∈ D, v <+: w) ∨ v <+: u

/-- The table holds the words of `D` and nothing else. -/
def Entered (t : Table) (D : Set (List UInt8)) : Prop := ∃ kids, Trie t kids D ∧ Reached kids D []

/-- What is entered for a word: with `-x`, the newline behind it too. -/
def key (xflag : Bool) (u : List UInt8) : List UInt8 := if xflag then u ++ [newline] else u

section

variable {α β : Type} {r : Except Stop α} {f : α → Except Stop β} {post post' : α → Prop}
  {goal : β → Prop} {t t' : Table} {kids : List UInt8 → List ℕ} {D : Set (List UInt8)}
  {u v w rest : List UInt8} {c : UInt8} {s y : ℕ} {xflag : Bool} {xs : List ℕ}

theorem Gives.mono (gives : Gives r post) (weaker : ∀ a, post a → post' a) : Gives r post' := by
  cases r with
  | ok a => exact weaker a gives
  | error e => exact gives

theorem Gives.bind (gives : Gives r post) (next : ∀ a, post a → Gives (f a) goal) :
    Gives (r >>= f) goal := by
  cases r with
  | ok a => exact next a gives
  | error e => exact gives

theorem Trie.prefix_closed (trie : Trie t kids D) (some : kids (u ++ v) ≠ []) : kids u ≠ [] := by
  induction v using List.reverseRecOn with
  | nil => simpa using some
  | append_singleton v c ih =>
      rw [← List.append_assoc] at some
      obtain ⟨-, x, mem, -⟩ := trie.known some
      exact ih (List.ne_nil_of_mem mem)

theorem Reached.update (reached : Reached kids D u) :
    Reached (update kids (u ++ [c]) xs) D (u ++ [c]) := by
  intro v some
  rcases eq_or_ne v (u ++ [c]) with rfl | ne
  · exact Or.inr (Or.inr (List.prefix_refl _))
  · rw [update_of_ne ne] at some
    rcases reached v some with empty | known | before
    · exact Or.inl empty
    · exact Or.inr (Or.inl known)
    · exact Or.inr (Or.inr (before.trans (List.prefix_append u [c])))

theorem Reached.link (reached : Reached kids D u) (some : kids v ≠ []) :
    Reached (Function.update kids v xs) D u := by
  intro v' some'
  rcases eq_or_ne v' v with rfl | ne
  · exact reached v' some
  · rw [update_of_ne ne] at some'
    exact reached v' some'

/-- Where the word is entered, its beginnings begin a word. -/
theorem Reached.insert (reached : Reached kids D u) (begins : u <+: w) :
    Reached kids (insert w D) [] := by
  intro v some
  rcases reached v some with empty | ⟨w', known, before⟩ | before
  · exact Or.inl empty
  · exact Or.inr (Or.inl ⟨w', Set.mem_insert_of_mem _ known, before⟩)
  · exact Or.inr (Or.inl ⟨w, Set.mem_insert _ _, before.trans begins⟩)

theorem Reached.of_nil (reached : Reached kids D []) : Reached kids D u := by
  intro v some
  rcases reached v some with empty | known | before
  · exact Or.inl empty
  · exact Or.inr (Or.inl known)
  · exact Or.inl (List.prefix_nil.mp before)

theorem addChild_gives (trie : Trie t kids D) (mem : y ∈ kids u) (empty : (t.w y).inp = 0)
    (proper : c ≠ 0) (unused : ∀ z ∈ kids u, (t.w z).inp ≠ c) (reached : Reached kids D u) :
    Gives (t.addChild y c) fun t' => ∃ kids', Trie t' kids' D ∧ kids' (u ++ [c]) = [t'.smax] ∧
      (t'.w t'.smax).inp = 0 ∧ Reached kids' D (u ++ [c]) := by
  cases h : t.addChild y c with
  | ok t' =>
      obtain ⟨trie', blank⟩ := trie.addChild mem empty proper unused h
      exact ⟨_, trie', update_self _ _ _, blank, reached.update⟩
  | error e =>
      unfold Table.addChild at h
      split at h
      · cases h
        rfl
      · cases h

theorem addLink_gives (trie : Trie t kids D) (mem : y ∈ kids u) (last : (t.w y).link = none)
    (others : ∀ z ∈ kids u, (t.w z).inp ≠ c ∧ (t.w z).inp ≠ 0) (proper : c ≠ 0)
    (reached : Reached kids D u) :
    Gives (t.addLink y) fun t' => ∃ kids', Trie t' kids' D ∧ t'.smax ∈ kids' u ∧
      (t'.w t'.smax).inp = 0 ∧ (∀ z ∈ kids' u, (t'.w z).inp ≠ c) ∧ Reached kids' D u := by
  cases h : t.addLink y with
  | ok t' =>
      obtain ⟨trie', blank, same⟩ := trie.addLink mem last (fun z mem => (others z mem).2) h
      refine ⟨_, trie', by simp, blank, ?_, reached.link (List.ne_nil_of_mem mem)⟩
      intro z mem'
      rw [update_self, List.mem_append, List.mem_singleton] at mem'
      rcases eq_or_ne z t'.smax with rfl | ne
      · rw [blank]
        exact proper.symm
      · rw [same z ne]
        exact (others z (mem'.resolve_right ne)).1
  | error e =>
      unfold Table.addLink at h
      split at h
      · cases h
        rfl
      · cases h

/-- The newline is entered behind a word. -/
theorem nenter_gives (trie : Trie t kids D) (mem : y ∈ kids u) (empty : (t.w y).inp = 0)
    (unused : ∀ z ∈ kids u, (t.w z).inp ≠ newline) (reached : Reached kids D u) :
    Gives (t.nenter y) fun t' => Entered t' (insert (u ++ [newline]) D) := by
  apply (addChild_gives trie mem empty (by decide) unused reached).bind
  rintro t' ⟨kids', trie', single, blank, reached'⟩
  exact ⟨kids', trie'.setOut (by rw [single]; rfl), reached'.insert (List.prefix_refl _)⟩

/-- The end of a word whose last character is new. -/
theorem finish_gives (trie : Trie t kids D) (single : kids u = [t.smax])
    (empty : (t.w t.smax).inp = 0) (reached : Reached kids D u) :
    Gives (t.finish xflag) fun t' => Entered t' (insert (key xflag u) D) := by
  unfold Table.finish key
  cases xflag with
  | true =>
      apply nenter_gives trie (by rw [single]; exact List.mem_singleton.mpr rfl) empty _ reached
      intro z mem
      rw [single] at mem
      rw [List.mem_singleton.mp mem, empty]
      decide
  | false =>
      have head : (kids u).head? = some t.smax := by rw [single]; rfl
      exact ⟨kids, trie.setOut head, reached.insert (List.prefix_refl _)⟩

/-- The end of a word that was there already. -/
theorem endWord_gives (trie : Trie t kids D) (head : (kids u).head? = some s)
    (reached : Reached kids D []) :
    Gives (t.endWord xflag s) fun t' => Entered t' (insert (key xflag u) D) := by
  unfold Table.endWord key
  cases xflag with
  | true =>
      simp only [if_true]
      rcases trie.loop_spec (c := newline) head with ⟨y, mem, eq, same⟩ |
        ⟨y, mem, eq, empty, others⟩ |
        ⟨y, mem, eq, last, others⟩
      · rw [eq]
        obtain ⟨next, some⟩ := trie.next mem (by rw [same]; decide)
        rw [same] at next some
        obtain ⟨x, xs, list⟩ := List.exists_cons_of_ne_nil some
        have first : (kids (u ++ [newline])).head? = Option.some x := by rw [list]; rfl
        change Gives (follow (t.w y).nst >>= fun s => .ok (t.setOut s)) _
        rw [next, first]
        exact ⟨kids, trie.setOut first, (reached.of_nil (u := u ++ [newline])).insert
          (List.prefix_refl _)⟩
      · rw [eq]
        exact nenter_gives trie mem empty others reached.of_nil
      · rw [eq]
        apply (addLink_gives trie mem last others (by decide) reached.of_nil).bind
        rintro t' ⟨kids', trie', mem', blank, unused, reached'⟩
        exact nenter_gives trie' mem' blank unused reached'
  | false =>
      exact ⟨kids, trie.setOut head, (reached.of_nil (u := u)).insert (List.prefix_refl _)⟩

/-- The rest of a word is new: with a newline behind it, `nword` goes on after it was entered. -/
theorem enter_gives (trie : Trie t kids D) (mem : y ∈ kids u) (empty : (t.w y).inp = 0)
    (unused : ∀ z ∈ kids u, (t.w z).inp ≠ c) (reached : Reached kids D u)
    (plain : ∀ d ∈ c :: v, d ≠ 0 ∧ d ≠ newline) (rest : List UInt8) :
    ∃ r, enter xflag t y c (v ++ newline :: rest) = (r >>= fun t => nword xflag t 0 rest) ∧
      enter xflag t y c v = r ∧
          Gives r fun t' => Entered t' (insert (key xflag (u ++ c :: v)) D) := by
  induction v generalizing t kids y u c with
  | nil =>
      have child := addChild_gives trie mem empty (plain c (by simp)).1 unused reached
      refine ⟨t.addChild y c >>= fun t => t.finish xflag, ?_, ?_, ?_⟩
      · rw [List.nil_append, enter]
        simp [bind_assoc]
      · rw [enter]
      · apply child.bind
        rintro t' ⟨kids', trie', single, blank, reached'⟩
        exact finish_gives trie' single blank reached'
  | cons d v ih =>
      obtain ⟨proper, plain'⟩ := List.forall_mem_cons.mp plain
      have child := addChild_gives trie mem empty proper.1 unused reached
      have proper' := plain' d List.mem_cons_self
      simp only [List.cons_append, enter, if_neg proper'.2]
      cases h : t.addChild y c with
      | error e =>
          rw [h] at child
          exact ⟨.error e, rfl, rfl, child⟩
      | ok t' =>
          rw [h] at child
          obtain ⟨kids', trie', single, blank, reached'⟩ := child
          have mem' : t'.smax ∈ kids' (u ++ [c]) := by rw [single]; exact List.mem_singleton.mpr rfl
          have unused' : ∀ z ∈ kids' (u ++ [c]), (t'.w z).inp ≠ d := by
            intro z mem
            rw [single] at mem
            rw [List.mem_singleton.mp mem, blank]
            exact proper'.1.symm
          obtain ⟨r, go, stop, gives⟩ := ih trie' mem' blank unused' reached' plain'
          refine ⟨r, go, stop, ?_⟩
          simpa using gives

/-- A word with a newline behind it is entered. -/
theorem nword_line (trie : Trie t kids D) (head : (kids u).head? = some s)
    (reached : Reached kids D []) (plain : ∀ d ∈ v, d ≠ 0 ∧ d ≠ newline) :
    ∃ r, nword xflag t s (v ++ newline :: rest) = (r >>= fun t => nword xflag t 0 rest) ∧
      Gives r fun t' => Entered t' (insert (key xflag (u ++ v)) D) := by
  induction v generalizing s u with
  | nil =>
      refine ⟨t.endWord xflag s, ?_, ?_⟩
      · rw [List.nil_append, nword, if_pos rfl]
      · rw [List.append_nil]
        exact endWord_gives trie head reached
  | cons c v ih =>
      obtain ⟨proper, plain'⟩ := List.forall_mem_cons.mp plain
      rw [List.cons_append, nword, if_neg proper.2]
      rcases trie.loop_spec (c := c) head with ⟨y, mem, eq, same⟩ | ⟨y, mem, eq, empty, others⟩ |
        ⟨y, mem, eq, last, others⟩
      · obtain ⟨next, some⟩ := trie.next mem (by rw [same]; exact proper.1)
        rw [same] at next some
        obtain ⟨x, xs, list⟩ := List.exists_cons_of_ne_nil some
        have first : (kids (u ++ [c])).head? = Option.some x := by rw [list]; rfl
        obtain ⟨r, go, gives⟩ := ih first plain'
        refine ⟨r, ?_, by simpa using gives⟩
        rw [← go, eq]
        change (follow (t.w y).nst >>= fun s => nword xflag t s _) = _
        rw [next, first]
        rfl
      · rw [eq]
        obtain ⟨r, go, -, gives⟩ := enter_gives trie mem empty others
          reached.of_nil plain _
        exact ⟨r, go, gives⟩
      · rw [eq]
        have link := addLink_gives trie mem last others proper.1 reached.of_nil
        change ∃ r, (t.addLink y >>= fun t => enter xflag t t.smax c _) = _ ∧ _
        cases h : t.addLink y with
        | error e =>
            rw [h] at link
            exact ⟨.error e, rfl, link⟩
        | ok t' =>
            rw [h] at link
            obtain ⟨kids', trie', mem', blank, unused, reached'⟩ := link
            obtain ⟨r, go, -, gives⟩ := enter_gives trie' mem' blank unused
              reached' plain _
            exact ⟨r, go, gives⟩

/-- A last word without a newline is entered, unless it begins one that is there. -/
theorem nword_last (trie : Trie t kids D) (head : (kids u).head? = some s)
    (reached : Reached kids D []) (plain : ∀ d ∈ v, d ≠ 0 ∧ d ≠ newline) :
    Gives (nword xflag t s v) fun t' =>
      Entered t' (if kids (u ++ v) = [] then insert (key xflag (u ++ v)) D else D) := by
  induction v generalizing s u with
  | nil =>
      rw [List.append_nil, if_neg (fun empty => by rw [empty] at head; cases head), nword]
      exact ⟨kids, trie, reached⟩
  | cons c v ih =>
      obtain ⟨proper, plain'⟩ := List.forall_mem_cons.mp plain
      have step : u ++ c :: v = u ++ [c] ++ v := by simp
      have absent (unused : ∀ z ∈ kids u, (t.w z).inp ≠ c) : kids (u ++ c :: v) = [] := by
        by_contra some
        rw [step] at some
        obtain ⟨-, x, mem, same⟩ := trie.known (trie.prefix_closed some)
        exact unused x mem same
      rw [nword, if_neg proper.2]
      rcases trie.loop_spec (c := c) head with ⟨y, mem, eq, same⟩ | ⟨y, mem, eq, empty, others⟩ |
        ⟨y, mem, eq, last, others⟩
      · obtain ⟨next, some⟩ := trie.next mem (by rw [same]; exact proper.1)
        rw [same] at next some
        obtain ⟨x, xs, list⟩ := List.exists_cons_of_ne_nil some
        have first : (kids (u ++ [c])).head? = Option.some x := by rw [list]; rfl
        rw [eq, step]
        change Gives (follow (t.w y).nst >>= fun s => nword xflag t s v) _
        rw [next, first]
        exact ih first plain'
      · rw [eq, if_pos (absent others)]
        obtain ⟨r, -, stop, gives⟩ := enter_gives trie mem empty others
          reached.of_nil plain []
        change Gives (enter xflag t y c v) _
        rw [stop]
        exact gives
      · rw [eq, if_pos (absent fun z mem => (others z mem).1)]
        apply (addLink_gives trie mem last others proper.1 reached.of_nil).bind
        rintro t' ⟨kids', trie', mem', blank, unused, reached'⟩
        obtain ⟨r, -, stop, gives⟩ := enter_gives trie' mem' blank unused
          reached' plain []
        rw [stop]
        exact gives

/-- The words that are marked: each that ends in a newline, and the last one unless it begins
another. -/
def marked (xflag : Bool) (words : List (List UInt8)) (last : List UInt8) : Set (List UInt8) :=
  {k | ∃ w, k = key xflag w ∧ (w ∈ words ∨ w = last ∧ last ≠ [] ∧ ∀ w' ∈ words, ¬last <+: w')}

theorem Trie.ne_nil_iff (trie : Trie t kids D) (reached : Reached kids D []) :
    kids v ≠ [] ↔ v = [] ∨ ∃ w ∈ D, v <+: w := by
  constructor
  · intro some
    rcases reached v some with empty | known | before
    · exact Or.inl empty
    · exact Or.inr known
    · exact Or.inl (List.prefix_nil.mp before)
  · rintro (rfl | ⟨w, known, back, rfl⟩)
    · intro none
      have root := trie.root
      rw [none] at root
      cases root
    · exact trie.prefix_closed (trie.dict known)

/-- A word without newlines begins what is entered for a word when it begins the word. -/
theorem prefix_key_iff (plain : newline ∉ v) : v <+: key xflag w ↔ v <+: w := by
  unfold key
  cases xflag with
  | false => exact Iff.rfl
  | true =>
      constructor
      · intro before
        rcases List.prefix_concat_iff.mp before with whole | before
        · exact absurd (whole ▸ List.mem_append_right w (List.mem_singleton.mpr rfl)) plain
        · exact before
      · intro before
        exact before.trans (List.prefix_append w [newline])

theorem nword_words {words : List (List UInt8)} {last : List UInt8} (done : List (List UInt8))
    (entered : Entered t {k | ∃ w ∈ done, k = key xflag w})
    (plain : ∀ w ∈ words, ∀ d ∈ w, d ≠ 0 ∧ d ≠ newline)
    (plain_last : ∀ d ∈ last, d ≠ 0 ∧ d ≠ newline) :
    Gives (nword xflag t 0 (words.flatMap (· ++ [newline]) ++ last))
      fun t' => Entered t' (marked xflag (done ++ words) last) := by
  induction words generalizing t done with
  | nil =>
      obtain ⟨kids, trie, reached⟩ := entered
      rw [List.flatMap_nil, List.nil_append, List.append_nil]
      apply (nword_last trie trie.root reached plain_last).mono
      intro t' entered
      rw [List.nil_append] at entered
      convert entered using 1
      have free : newline ∉ last := fun mem => (plain_last newline mem).2 rfl
      split
      next absent =>
        have new : ¬(last = [] ∨ ∃ w ∈ {k | ∃ w ∈ done, k = key xflag w}, last <+: w) :=
          fun some => (trie.ne_nil_iff reached).mpr some absent
        ext k
        constructor
        · rintro ⟨w, rfl, mem | ⟨rfl, -, -⟩⟩
          · exact Or.inr ⟨w, mem, rfl⟩
          · exact Or.inl rfl
        · rintro (rfl | ⟨w, mem, rfl⟩)
          · refine ⟨last, rfl, Or.inr ⟨rfl, fun empty => new (Or.inl empty), ?_⟩⟩
            intro w mem before
            exact new (Or.inr ⟨_, ⟨w, mem, rfl⟩, (prefix_key_iff free).mpr before⟩)
          · exact ⟨w, rfl, Or.inl mem⟩
      next there =>
        have old := (trie.ne_nil_iff reached).mp there
        ext k
        constructor
        · rintro ⟨w, rfl, mem | ⟨rfl, some, others⟩⟩
          · exact ⟨w, mem, rfl⟩
          · rcases old with empty | ⟨_, ⟨w', mem, rfl⟩, before⟩
            · exact absurd empty some
            · exact absurd ((prefix_key_iff free).mp before) (others w' mem)
        · rintro ⟨w, mem, rfl⟩
          exact ⟨w, rfl, Or.inl mem⟩
  | cons w words ih =>
      obtain ⟨kids, trie, reached⟩ := entered
      obtain ⟨plain_w, plain⟩ := List.forall_mem_cons.mp plain
      obtain ⟨r, go, gives⟩ := nword_line
        trie trie.root reached plain_w
      have split : (w :: words).flatMap (· ++ [newline]) ++ last =
          w ++ newline :: (words.flatMap (· ++ [newline]) ++ last) := by simp
      rw [split, go]
      apply gives.bind
      intro t' entered
      have more : insert (key xflag ([] ++ w)) {k | ∃ w ∈ done, k = key xflag w} =
          {k | ∃ w' ∈ done ++ [w], k = key xflag w'} := by
        ext k
        simp only [List.nil_append, Set.mem_insert_iff, Set.mem_ofPred_eq, List.mem_append,
          List.mem_singleton, or_and_right, exists_or, exists_eq_left, or_comm]
      rw [more] at entered
      have rest := ih _ entered plain
      rwa [List.append_assoc, List.singleton_append] at rest

/-- The table before anything is entered. -/
theorem entered_blank : Entered ⟨fun _ => blank, 0⟩ ∅ := by
  have mem_iff : ∀ u x, x ∈ update (fun _ => []) ([] : List UInt8) [0] u ↔ u = [] ∧ x = 0 := by
    intro u x
    rw [update_apply]
    split
    next eq => simp [eq]
    next ne => simp [ne]
  refine ⟨update (fun _ => []) [] [0], ?_, ?_⟩
  · refine {
      small := by decide
      root := by rw [update_self]; rfl
      linked := ?_
      apart := ?_
      nodup := ?_
      below := ?_
      fresh := fun _ _ => rfl
      next := fun _ _ _ used => absurd rfl used
      letters := fun _ _ _ _ _ _ used => absurd rfl used
      known := ?_
      closed := fun _ _ _ linked => absurd rfl linked
      marks := ?_
      dict := fun _ mem => absurd mem (Set.notMem_empty _)
      fails := fun _ => rfl }
    · intro u
      rw [update_apply]
      split
      next => exact ⟨rfl, trivial⟩
      next => trivial
    · intro u v x hx hx'
      rw [((mem_iff u x).mp hx).1, ((mem_iff v x).mp hx').1]
    · intro u
      rw [update_apply]
      split
      next => simp
      next => exact List.nodup_nil
    · intro u x hx
      exact ((mem_iff u x).mp hx).2.le
    · intro u c some
      rw [update_of_ne (by simp)] at some
      exact absurd rfl some
    · intro u x _
      constructor
      · intro marked
        cases marked
      · rintro ⟨-, known⟩
        exact absurd known (Set.notMem_empty _)
  · intro v some
    rcases eq_or_ne v [] with rfl | ne
    · exact Or.inl rfl
    · rw [update_of_ne ne] at some
      exact absurd rfl some

/-- `cgotofn` enters the words, unless the table overflows. -/
theorem cgotofn_gives {words : List (List UInt8)} {last : List UInt8}
    (plain : ∀ w ∈ words, ∀ d ∈ w, d ≠ 0 ∧ d ≠ newline)
    (plain_last : ∀ d ∈ last, d ≠ 0 ∧ d ≠ newline) :
    Gives (cgotofn xflag (words.flatMap (· ++ [newline]) ++ last))
      fun t => Entered t (marked xflag words last) := by
  apply nword_words [] _ plain plain_last
  have none : {k : List UInt8 | ∃ w ∈ ([] : List (List UInt8)), k = key xflag w} = ∅ := by
    ext k
    simp
  rw [none]
  exact entered_blank

end

end Fgrep

end UnixV7
