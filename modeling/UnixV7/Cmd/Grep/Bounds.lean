import Mathlib.Data.List.Count
import UnixV7.Cmd.Grep.Compile

/-!
# The bounds of the compiler

`compile` of `grep.c` with the places it reads and writes. An expression is read as tokens; what
they take in `expbuf` and which of them is refused is said without the compiler, and so is where it
strays from its arrays.
-/

namespace UnixV7

namespace Grep

/-- How `compile` does not return: with an error, or behind the end of the expression or of one of
its arrays. -/
inductive Fault
  | error
  | reads
  | writes
  deriving DecidableEq

namespace Partial

/-- An item is written at `ep`. -/
def write (s : Partial) (item : Item) : Except Fault Partial :=
  if ESIZE < s.ep + item.size then .error .writes else .ok (s.put item)

/-- `\(` -/
def writeOpening (s : Partial) : Except Fault Partial :=
  if NBRA ≤ s.bracket.length then .error .writes
  else (s.write (.cbra s.numbra)).map fun s' =>
    { s' with bracket := s.numbra :: s.bracket, numbra := s.numbra + 1 }

/-- `\)` -/
def writeClosing (s : Partial) (n : ℕ) (bracket : List ℕ) : Except Fault Partial :=
  (s.write (.cket n)).map fun s' => { s' with bracket := bracket, closed := s.closed + 1 }

/-- What follows a backslash. -/
def writeEscape (s : Partial) (c : UInt8) : Except Fault Partial :=
  if c = leftParen then
    if NBRA ≤ s.numbra then .error .error else s.writeOpening
  else if c = rightParen then
    match s.bracket with
    | [] => .error .error
    | n :: bracket => s.writeClosing n bracket
  else if digitOne ≤ c ∧ c ≤ digitNine then
    if s.closed ≤ (c - digitOne).toNat then .error .error
    else s.write (.cback (c - digitOne).toNat false)
  else s.write (.cchr c false)

end Partial

mutual

/-- The loop of `compile`. The expression is a list that ends with its NUL. -/
def compileIn (s : Partial) : List UInt8 → Except Fault (List Item)
  | [] => if ESIZE ≤ s.ep then .error .error else .error .reads
  | c :: sp =>
      if ESIZE ≤ s.ep then .error .error
      else if c = 0 then .ok s.expbuf
      else if c = dot then (s.setLast.write (.cdot false)).bind fun s => compileIn s sp
      else if c = asterisk then
        if s.noRepeat then (s.write (.cchr c false)).bind fun s => compileIn s sp
        else compileIn s.repeatLast sp
      else if c = dollar then
        match sp with
        | [] => .error .reads
        | d :: sp' =>
            if d ≠ 0 then (s.setLast.write (.cchr c false)).bind fun s => compileIn s (d :: sp')
            else (s.setLast.write .cdol).bind fun s => compileIn s (d :: sp')
      else if c = leftBracket then
        if ESIZE ≤ s.ep + 17 then .error .error
        else
          match sp with
          | [] => .error .reads
          | d :: sp' =>
              if d = caret then classIn s.setLast true 0 true 0 sp'
              else classIn s.setLast false 0 true 0 (d :: sp')
      else if c = backslash then
        match sp with
        | [] => .error .reads
        | d :: sp' => (s.setLast.writeEscape d).bind fun s => compileIn s sp'
      else (s.setLast.write (.cchr c false)).bind fun s => compileIn s sp

/-- The loop over the characters of a class. -/
def classIn (s : Partial) (neg : Bool) (table : ℕ) (first : Bool) (before : UInt8) :
    List UInt8 → Except Fault (List Item)
  | [] => .error .reads
  | c :: sp =>
      if c = 0 then .error .error
      else
        match sp with
        | [] => .error .reads
        | d :: sp' =>
            if c = hyphen ∧ ¬first ∧ d ≠ rightBracket then
              match sp' with
              | [] => .error .reads
              | e :: sp'' =>
                  let table := setRange table (low before) (low d)
                  if e = rightBracket then
                    (s.write (.ccl (if neg then negate table else table) false)).bind fun s =>
                      compileIn s sp''
                  else classIn s neg table false d (e :: sp'')
            else
              let table := setBit table (low c)
              if d = rightBracket then
                (s.write (.ccl (if neg then negate table else table) false)).bind fun s =>
                  compileIn s sp'
              else classIn s neg table false c (d :: sp')

end

/-- `compile` -/
def compileBounds (astr : List UInt8) : Except Fault (List Item × Bool) :=
  match astr with
  | [] => .error .reads
  | c :: sp =>
      if c = caret then (compileIn ⟨[], none, [], 0, 0⟩ sp).map fun expbuf => (expbuf, true)
      else (compileIn ⟨[], none, [], 0, 0⟩ (c :: sp)).map fun expbuf => (expbuf, false)

theorem compileIn_nil (s : Partial) :
    compileIn s [] = if ESIZE ≤ s.ep then .error .error else .error .reads := rfl

theorem compileIn_nul (s : Partial) :
    compileIn s [0] = if ESIZE ≤ s.ep then .error .error else .ok s.expbuf := rfl

/-- A full `expbuf` is an error, whatever is left of the expression. -/
theorem compileIn_full {s : Partial} (full : ESIZE ≤ s.ep) (sp : List UInt8) :
    compileIn s sp = .error .error := by
  rw [compileIn.eq_def]
  cases sp with
  | nil => exact if_pos full
  | cons c sp => exact if_pos full

theorem classIn_nil (s : Partial) (neg : Bool) (table : ℕ) (first : Bool) (before : UInt8) :
    classIn s neg table first before [] = .error .reads := rfl

theorem classIn_nul (s : Partial) (neg : Bool) (table : ℕ) (first : Bool) (before : UInt8) :
    classIn s neg table first before [0] = .error .error := rfl

/-! ## Tokens -/

/-- What an expression is made of. The last three stand at its end: a backslash with nothing behind
it, a class that ends behind a hyphen, and one that ends elsewhere. -/
inductive Token
  | char
  | dot
  | star
  | dollar
  | cls
  | opening
  | closing
  | back (n : ℕ)
  | backslash
  | hyphen
  | unclosed
  deriving DecidableEq

/-- A character behind a backslash. -/
def Token.escaped (c : UInt8) : Token :=
  if c = leftParen then .opening
  else if c = rightParen then .closing
  else if digitOne ≤ c ∧ c ≤ digitNine then .back (c - digitOne).toNat
  else .char

mutual

/-- The tokens of an expression. -/
def tokens : List UInt8 → List Token
  | [] => []
  | c :: sp =>
      if c = dot then .dot :: tokens sp
      else if c = asterisk then .star :: tokens sp
      else if c = dollar then
        match sp with
        | [] => [.dollar]
        | d :: sp' => .char :: tokens (d :: sp')
      else if c = leftBracket then
        match sp with
        | [] => [.unclosed]
        | d :: sp' => if d = caret then classTokens true sp' else classTokens true (d :: sp')
      else if c = backslash then
        match sp with
        | [] => [.backslash]
        | d :: sp' => .escaped d :: tokens sp'
      else .char :: tokens sp

/-- The tokens from a character of a class on. -/
def classTokens (first : Bool) : List UInt8 → List Token
  | [] => [.unclosed]
  | c :: sp =>
      match sp with
      | [] => if c = Grep.hyphen ∧ ¬first then [.hyphen] else [.unclosed]
      | d :: sp' =>
          if c = Grep.hyphen ∧ ¬first ∧ d ≠ rightBracket then
            match sp' with
            | [] => [.unclosed]
            | e :: sp'' =>
                if e = rightBracket then .cls :: tokens sp'' else classTokens false (e :: sp'')
          else if d = rightBracket then .cls :: tokens sp'
          else classTokens false (d :: sp')

end

/-- The last token but stars is one that a star repeats; `before` has the latest first. -/
def Repeats : List Token → Bool
  | [] => false
  | .star :: before => Repeats before
  | .opening :: _ => false
  | .closing :: _ => false
  | _ :: _ => true

/-- The bytes that a token takes in `expbuf`. -/
def Token.width (before : List Token) : Token → ℕ
  | .dot => 1
  | .dollar => 1
  | .star => if Repeats before then 0 else 2
  | .cls => 17
  | .hyphen => 17
  | .unclosed => 17
  | _ => 2

/-- The bytes that tokens take. -/
def size : List Token → ℕ
  | [] => 0
  | t :: before => size before + t.width before

/-- The token is an error. -/
def Refused (before : List Token) (t : Token) : Prop :=
  ESIZE ≤ size before ∨
    match t with
    | .opening => NBRA ≤ before.count .opening
    | .closing => before.count .opening ≤ before.count .closing
    | .back n => before.count .closing ≤ n
    | .cls => ESIZE ≤ size before + 17
    | .hyphen => ESIZE ≤ size before + 17
    | .unclosed => True
    | _ => False

/-- The token leads behind the end of `expbuf`, or behind the end of the expression. A backslash
that takes the last two bytes of `expbuf` does neither. -/
def Strays (before : List Token) : Token → Prop
  | .backslash => size before + 2 ≠ ESIZE
  | .hyphen => True
  | t => ESIZE < size before + t.width before

/-- No token strays, up to the first one that is refused. -/
def Safe (before : List Token) : List Token → Prop
  | [] => True
  | t :: ts => Refused before t ∨ ¬ Strays before t ∧ Safe (t :: before) ts

/-- Every closing bracket of a group has its opening bracket before it. -/
def Nested (items : List Item) : Prop :=
  ∀ i n : ℕ, items[i]? = some (Item.cket n) → ∃ j < i, items[j]? = some (Item.cbra n)

/-- The bytes of a program in front of its `CEOF`, which leave room for it. -/
def Fits (items : List Item) : Prop := (items.map Item.size).sum < ESIZE

/-- No array is left, and what is returned is a program. -/
def Inside : Except Fault (List Item) → Prop
  | .ok items => Fits items ∧ Nested items
  | .error fault => fault = .error

/-! ## One token -/

theorem noRepeat_of_last {s : Partial} {i : ℕ} (last : s.lastep = some i) :
    s.noRepeat = (s.expbuf[i]?).any Item.isBracket := by
  rw [Partial.noRepeat, last]

/-- The compiler has got as far as the tokens. -/
structure Follows (s : Partial) (before : List Token) : Prop where
  ep : s.ep = size before
  numbra : s.numbra = before.count .opening
  closed : s.closed = before.count .closing
  bracket : s.bracket.length + s.closed = s.numbra
  last : ∀ i, s.lastep = some i → i < s.expbuf.length
  repeats : s.noRepeat = !Repeats before
  nested : Nested s.expbuf
  opened : ∀ n ∈ s.bracket, Item.cbra n ∈ s.expbuf

variable {s s' : Partial} {before : List Token} {item : Item} {items : List Item} {n : ℕ}
  {t : Token} {ts : List Token}

theorem ep_put (s : Partial) (item : Item) : (s.put item).ep = s.ep + item.size := by
  rw [Partial.ep, Partial.put, List.map_append, List.sum_append, List.map_singleton,
    List.sum_singleton, Partial.ep]

theorem nested_append (nested : Nested items) (opened : ∀ n, item = .cket n → Item.cbra n ∈ items) :
    Nested (items ++ [item]) := by
  intro i n here
  obtain inside | outside := Nat.lt_or_ge i items.length
  · rw [List.getElem?_append_left inside] at here
    obtain ⟨j, less, there⟩ := nested i n here
    exact ⟨j, less, by rwa [List.getElem?_append_left (less.trans inside)]⟩
  · rw [List.getElem?_append_right outside] at here
    have last : item = .cket n := by
      have mem := List.mem_of_getElem? here
      exact (List.mem_singleton.mp mem).symm
    obtain ⟨j, there⟩ := List.mem_iff_getElem?.mp (opened n last)
    obtain ⟨less, -⟩ := List.getElem?_eq_some_iff.mp there
    exact ⟨j, less.trans_le outside, by rwa [List.getElem?_append_left less]⟩

/-- A star leaves the brackets as they are. -/
theorem getElem?_modify_bracket (bracket : item.isBracket = true) (i k : ℕ) :
    (items.modify k Item.addStar)[i]? = some item ↔ items[i]? = some item := by
  rw [List.getElem?_modify]
  have same : ∀ other : Item, other.addStar = item ↔ other = item := by
    intro other
    cases item with
    | cbra n => cases other <;> simp [Item.addStar]
    | cket n => cases other <;> simp [Item.addStar]
    | _ => cases bracket
  cases items[i]? with
  | none => simp
  | some other =>
      rw [Option.map_eq_map, Option.map_some, Option.some_inj, Option.some_inj]
      split
      · exact same other
      · exact Iff.rfl

theorem nested_modify (nested : Nested items) (k : ℕ) : Nested (items.modify k Item.addStar) := by
  intro i n here
  obtain ⟨j, less, there⟩ := nested i n ((getElem?_modify_bracket rfl i k).mp here)
  exact ⟨j, less, (getElem?_modify_bracket rfl j k).mpr there⟩

theorem sum_modify (items : List Item) (k : ℕ) :
    ((items.modify k Item.addStar).map Item.size).sum = (items.map Item.size).sum := by
  induction items generalizing k with
  | nil => cases k <;> rfl
  | cons item items ih =>
      cases k with
      | zero =>
          rw [List.modify_zero_cons, List.map_cons, List.map_cons]
          congr 2
          cases item <;> rfl
      | succ k => rw [List.modify_succ_cons, List.map_cons, List.sum_cons, ih, List.map_cons,
          List.sum_cons]

/-- An item that no star was in front of is written. -/
theorem Follows.put (follows : Follows s before) (width : item.size = t.width before)
    (bracket : item.isBracket = !Repeats (t :: before)) (plain : item.isBracket = false)
    (opening : t ≠ .opening) (closing : t ≠ .closing) :
    Follows (s.setLast.put item) (t :: before) where
  ep := by
    rw [ep_put, size, width]
    exact congrArg (· + _) follows.ep
  numbra := by
    rw [List.count_cons_of_ne opening]
    exact follows.numbra
  closed := by
    rw [List.count_cons_of_ne closing]
    exact follows.closed
  bracket := follows.bracket
  last i here := by
    obtain rfl := Option.some.inj here
    show _ < (s.expbuf ++ [item]).length
    rw [List.length_append]
    exact Nat.lt_succ_self _
  repeats := by
    rw [← bracket]
    show ((s.expbuf ++ [item])[s.expbuf.length]?).any Item.isBracket = _
    rw [List.getElem?_append_right le_rfl, Nat.sub_self]
    rfl
  nested := by
    refine nested_append follows.nested fun n same => ?_
    rw [same] at plain
    cases plain
  opened n mem := List.mem_append_left _ (follows.opened n mem)

/-- A star that repeats nothing is a character. -/
theorem Follows.put_star (follows : Follows s before) (alone : Repeats before = false) (c : UInt8) :
    Follows (s.put (.cchr c false)) (.star :: before) where
  ep := by
    rw [ep_put, size, Token.width, alone, follows.ep]
    rfl
  numbra := follows.numbra
  closed := follows.closed
  bracket := follows.bracket
  last i here := by
    show i < (s.expbuf ++ [_]).length
    rw [List.length_append]
    exact Nat.lt_succ_of_lt (follows.last i here)
  repeats := by
    rw [Repeats, ← follows.repeats]
    cases last : s.lastep with
    | none => rw [Partial.noRepeat, Partial.noRepeat, Partial.put, last]
    | some i =>
        have last' : (s.put (.cchr c false)).lastep = some i := last
        rw [noRepeat_of_last last', noRepeat_of_last last, Partial.put,
          List.getElem?_append_left (follows.last i last)]
  nested := nested_append follows.nested fun n same => by cases same
  opened n mem := List.mem_append_left _ (follows.opened n mem)

/-- A star that repeats an item takes no room. -/
theorem Follows.repeatLast (follows : Follows s before) (repeated : Repeats before = true) :
    Follows s.repeatLast (.star :: before) := by
  have busy := follows.repeats
  rw [repeated] at busy
  obtain ⟨i, last⟩ : ∃ i, s.lastep = some i := by
    cases last : s.lastep with
    | none =>
        rw [Partial.noRepeat, last] at busy
        cases busy
    | some i => exact ⟨i, rfl⟩
  have changed : s.repeatLast = { s with expbuf := s.expbuf.modify i Item.addStar } := by
    rw [Partial.repeatLast, last]
  rw [changed]
  exact {
    ep := by
      rw [size, Token.width, repeated]
      exact (sum_modify s.expbuf i).trans follows.ep
    numbra := follows.numbra
    closed := follows.closed
    bracket := follows.bracket
    last := fun j here => by
      show j < (s.expbuf.modify i Item.addStar).length
      rw [List.length_modify]
      exact follows.last j here
    repeats := by
      have last' : Partial.lastep { s with expbuf := s.expbuf.modify i Item.addStar } = some i :=
        last
      rw [Repeats, ← follows.repeats, noRepeat_of_last last', noRepeat_of_last last,
        List.getElem?_modify_eq]
      cases s.expbuf[i]? with
      | none => rfl
      | some item => cases item <;> rfl
    nested := nested_modify follows.nested i
    opened := fun n mem => by
      obtain ⟨j, there⟩ := List.mem_iff_getElem?.mp (follows.opened n mem)
      exact List.mem_iff_getElem?.mpr ⟨j, (getElem?_modify_bracket rfl j i).mpr there⟩ }

/-- A group begins. -/
theorem Follows.opening (follows : Follows s before) :
    Follows { s.setLast.put (.cbra s.numbra) with
      bracket := s.numbra :: s.bracket, numbra := s.numbra + 1 } (.opening :: before) where
  ep := (ep_put s.setLast _).trans (congrArg (· + 2) follows.ep)
  numbra := by
    rw [List.count_cons_self, ← follows.numbra]
  closed := by
    rw [List.count_cons_of_ne (by decide)]
    exact follows.closed
  bracket := by
    have := follows.bracket
    show s.bracket.length + 1 + s.closed = s.numbra + 1
    omega
  last i here := by
    obtain rfl := Option.some.inj here
    show _ < (s.expbuf ++ [_]).length
    rw [List.length_append]
    exact Nat.lt_succ_self _
  repeats := by
    show ((s.expbuf ++ [_])[s.expbuf.length]?).any Item.isBracket = _
    rw [List.getElem?_append_right le_rfl, Nat.sub_self]
    rfl
  nested := nested_append follows.nested fun n same => by cases same
  opened n mem := by
    obtain rfl | old := List.mem_cons.mp mem
    · exact List.mem_append_right _ (List.mem_singleton_self _)
    · exact List.mem_append_left _ (follows.opened n old)

/-- A group ends. -/
theorem Follows.closing {bracket : List ℕ} (follows : Follows s before)
    (open' : s.bracket = n :: bracket) :
    Follows { s.setLast.put (.cket n) with bracket := bracket, closed := s.closed + 1 }
      (.closing :: before) where
  ep := (ep_put s.setLast _).trans (congrArg (· + 2) follows.ep)
  numbra := by
    rw [List.count_cons_of_ne (by decide)]
    exact follows.numbra
  closed := by
    rw [List.count_cons_self, ← follows.closed]
  bracket := by
    have count := follows.bracket
    rw [open', List.length_cons] at count
    show bracket.length + (s.closed + 1) = s.numbra
    omega
  last i here := by
    obtain rfl := Option.some.inj here
    show _ < (s.expbuf ++ [_]).length
    rw [List.length_append]
    exact Nat.lt_succ_self _
  repeats := by
    show ((s.expbuf ++ [_])[s.expbuf.length]?).any Item.isBracket = _
    rw [List.getElem?_append_right le_rfl, Nat.sub_self]
    rfl
  nested := nested_append follows.nested fun m same => by
    obtain rfl := Item.cket.inj same
    exact follows.opened n (by rw [open']; exact List.mem_cons_self)
  opened m mem := by
    have inner : m ∈ s.bracket := by
      rw [open']
      exact List.mem_cons_of_mem _ mem
    exact List.mem_append_left _ (follows.opened m inner)

/-! ## The loops -/

/-- An item is written, or leads behind the end of `expbuf`. -/
theorem inside_write {k : Partial → Except Fault (List Item)} (kept : ¬ Refused before t)
    (strays : Strays before t ↔ ESIZE < s.ep + item.size)
    (next : s.ep + item.size ≤ ESIZE → (Inside (k (s.put item)) ↔ Safe (t :: before) ts)) :
    Inside ((s.write item).bind k) ↔ Safe before (t :: ts) := by
  rw [Safe, or_iff_right kept, strays, Partial.write]
  split
  next beyond => exact iff_of_false (fun same => by cases same) fun both => both.1 beyond
  next within =>
    rw [and_iff_right within]
    exact next (Nat.not_lt.mp within)

theorem not_refused (room : size before < ESIZE)
    (plain : t = .char ∨ t = .dot ∨ t = .star ∨ t = .dollar) : ¬ Refused before t := by
  rintro (full | wrong)
  · exact absurd full (Nat.not_le.mpr room)
  · obtain rfl | rfl | rfl | rfl := plain <;> exact wrong

/-- A token that is an error. -/
theorem inside_error (refused : Refused before t) :
    Inside (.error .error) ↔ Safe before (t :: ts) :=
  iff_of_true rfl (.inl refused)

/-- What the loop over the expression does with the tokens that are left. -/
def Loops (sp : List UInt8) : Prop :=
  ∀ s before, Follows s before → (Inside (compileIn s (sp ++ [0])) ↔ Safe before (tokens sp))

/-- What the loop over a class does with them. -/
def ClassLoops (sp : List UInt8) : Prop :=
  ∀ s before neg table first c, Follows s before → size before + 17 < ESIZE →
    (Inside (classIn s.setLast neg table first c (sp ++ [0])) ↔ Safe before (classTokens first sp))

theorem loops_nil : Loops [] := by
  intro s before follows
  rw [List.nil_append, compileIn_nul]
  split
  · exact iff_of_true rfl trivial
  next room => exact iff_of_true ⟨Nat.lt_of_not_le room, follows.nested⟩ trivial

theorem follows_char (follows : Follows s before) (c : UInt8) :
    Follows (s.setLast.put (.cchr c false)) (.char :: before) :=
  follows.put rfl rfl rfl (by decide) (by decide)

/-- A character. -/
theorem inside_char {sp : List UInt8} (loops : Loops sp) (follows : Follows s before)
    (room : s.ep < ESIZE) (c : UInt8) :
    Inside ((s.setLast.write (.cchr c false)).bind fun s => compileIn s (sp ++ [0])) ↔
      Safe before (.char :: tokens sp) := by
  refine inside_write (not_refused (follows.ep ▸ room) (.inl rfl)) ?_ fun _ =>
    loops _ _ (follows_char follows c)
  show ESIZE < size before + 2 ↔ ESIZE < s.ep + 2
  rw [follows.ep]

theorem bind_map {α β γ ε : Type} (x : Except ε α) (f : α → β) (k : β → Except ε γ) :
    (x.map f).bind k = x.bind fun a => k (f a) := by
  cases x with
  | error => rfl
  | ok => rfl

/-- What follows a backslash. -/
theorem inside_escape {sp : List UInt8} (loops : Loops sp) (follows : Follows s before)
    (room : s.ep < ESIZE) (d : UInt8) :
    Inside ((s.setLast.writeEscape d).bind fun s => compileIn s (sp ++ [0])) ↔
      Safe before (.escaped d :: tokens sp) := by
  have kept : ¬ ESIZE ≤ size before := Nat.not_le.mpr (follows.ep ▸ room)
  have count := follows.bracket
  have strays : ESIZE < size before + 2 ↔ ESIZE < s.ep + 2 := by rw [follows.ep]
  rw [Partial.writeEscape, Token.escaped]
  obtain left | left := em (d = leftParen)
  · rw [if_pos left, if_pos left]
    split
    next many => exact inside_error (.inr (follows.numbra ▸ many))
    next few =>
      have room' : ¬ NBRA ≤ s.setLast.bracket.length := fun many =>
        few (many.trans (show s.bracket.length ≤ s.numbra by omega))
      rw [Partial.writeOpening, if_neg room', bind_map]
      refine inside_write ?_ strays fun _ => loops _ _ follows.opening
      rintro (full | many)
      · exact kept full
      · exact few (follows.numbra ▸ many)
  rw [if_neg left, if_neg left]
  obtain right | right := em (d = rightParen)
  · rw [if_pos right, if_pos right]
    split
    next none =>
      have none' : s.bracket.length = 0 := List.length_eq_zero_iff.mpr none
      refine inside_error (.inr ?_)
      show before.count .opening ≤ before.count .closing
      rw [← follows.numbra, ← follows.closed]
      omega
    next n bracket open' =>
      have open'' : s.bracket = n :: bracket := open'
      rw [Partial.writeClosing, bind_map]
      refine inside_write ?_ strays fun _ => loops _ _ (follows.closing open'')
      rintro (full | unopened)
      · exact kept full
      · change before.count .opening ≤ before.count .closing at unopened
        rw [← follows.numbra, ← follows.closed] at unopened
        rw [open'', List.length_cons] at count
        omega
  rw [if_neg right, if_neg right]
  obtain digit | digit := em (digitOne ≤ d ∧ d ≤ digitNine)
  · rw [if_pos digit, if_pos digit]
    split
    next unknown => exact inside_error (.inr (follows.closed ▸ unknown))
    next known =>
      refine inside_write ?_ strays fun _ => loops _ _ (follows.put rfl rfl rfl nofun nofun)
      rintro (full | unknown)
      · exact kept full
      · exact known (follows.closed ▸ unknown)
  rw [if_neg digit, if_neg digit]
  exact inside_char loops follows room d

/-- A backslash at the end: the NUL is taken for its character. -/
theorem inside_backslash (follows : Follows s before) (room : s.ep < ESIZE) :
    Inside ((s.setLast.writeEscape 0).bind fun s => compileIn s []) ↔
      Safe before [.backslash] := by
  have kept : ¬ Refused before .backslash := by
    rintro (full | wrong)
    · exact absurd full (Nat.not_le.mpr (follows.ep ▸ room))
    · exact wrong
  rw [Safe, or_iff_right kept, Safe, and_true]
  show _ ↔ ¬ size before + 2 ≠ ESIZE
  rw [not_not, ← follows.ep]
  have written : s.setLast.writeEscape 0 =
      if ESIZE < s.ep + 2 then .error .writes else .ok (s.setLast.put (.cchr 0 false)) := rfl
  have ep : (s.setLast.put (.cchr 0 false)).ep = s.ep + 2 := ep_put s.setLast _
  rw [written]
  split
  next beyond => exact iff_of_false (fun same => by cases same) (Nat.ne_of_gt beyond)
  next within =>
    show Inside (compileIn (s.setLast.put (.cchr 0 false)) []) ↔ _
    rw [compileIn_nil, ep]
    split
    next full => exact iff_of_true rfl (by omega)
    next more => exact iff_of_false (fun same => by cases same) (by omega)

/-- A class that is closed. -/
theorem inside_cls {sp : List UInt8} (loops : Loops sp) (follows : Follows s before)
    (room : size before + 17 < ESIZE) (table : ℕ) :
    Inside ((s.setLast.write (.ccl table false)).bind fun s => compileIn s (sp ++ [0])) ↔
      Safe before (.cls :: tokens sp) := by
  refine inside_write ?_ ?_ fun _ => loops _ _ (follows.put rfl rfl rfl nofun nofun)
  · rintro (full | full)
    · omega
    · exact absurd full (Nat.not_le.mpr room)
  · show ESIZE < size before + 17 ↔ ESIZE < s.ep + 17
    rw [follows.ep]

theorem safe_of_full (full : ESIZE ≤ size before) (ts : List Token) : Safe before ts := by
  cases ts with
  | nil => trivial
  | cons t ts => exact .inl (.inl full)

/-- Where a class does not fit, its token is an error. -/
theorem safe_class (full : ESIZE ≤ size before + 17) (n : ℕ) (first : Bool) (sp : List UInt8)
    (short : sp.length < n) : Safe before (classTokens first sp) := by
  induction n generalizing first sp with
  | zero => exact absurd short (Nat.not_lt_zero _)
  | succ n ih =>
      have refused : ∀ ts, Safe before (.unclosed :: ts) := fun ts => .inl (.inr trivial)
      have closed : ∀ ts, Safe before (.cls :: ts) := fun ts => .inl (.inr full)
      match sp with
      | [] => exact refused []
      | [c] =>
          rw [classTokens.eq_def]
          dsimp only
          split
          · exact .inl (.inr full)
          · exact refused []
      | c :: d :: sp =>
          have short' : (d :: sp).length < n := Nat.lt_of_succ_lt_succ short
          rw [classTokens.eq_def]
          dsimp only
          split
          · cases sp with
            | nil => exact refused []
            | cons e sp =>
                dsimp only
                split
                · exact closed _
                · exact ih _ _ (Nat.lt_of_succ_lt short')
          · split
            · exact closed _
            · exact ih _ _ short'

/-- One token of the expression. -/
theorem loops_cons {c : UInt8} {sp : List UInt8} (proper : c ≠ 0) (proper' : 0 ∉ sp)
    (loops : Loops sp) (loops' : Loops sp.tail) (inner : ClassLoops sp)
    (inner' : ClassLoops sp.tail) : Loops (c :: sp) := by
  intro s before follows
  obtain full | room := le_or_gt ESIZE s.ep
  · rw [compileIn_full full]
    exact iff_of_true rfl (safe_of_full (follows.ep ▸ full) _)
  have room' : size before < ESIZE := follows.ep ▸ room
  rw [List.cons_append, compileIn.eq_def, tokens.eq_def]
  dsimp only
  rw [if_neg (Nat.not_le.mpr room), if_neg proper]
  obtain one | one := em (c = dot)
  · rw [if_pos one, if_pos one]
    refine inside_write (not_refused room' (.inr (.inl rfl))) ?_ fun _ =>
      loops _ _ (follows.put rfl rfl rfl nofun nofun)
    show ESIZE < size before + 1 ↔ ESIZE < s.ep + 1
    rw [follows.ep]
  rw [if_neg one, if_neg one]
  obtain one | one := em (c = asterisk)
  · rw [if_pos one, if_pos one]
    have kept := not_refused room' (.inr (.inr (.inl rfl)))
    cases repeated : Repeats before with
    | false =>
        rw [if_pos (by rw [follows.repeats, repeated]; rfl)]
        refine inside_write kept ?_ fun _ => loops _ _ (follows.put_star repeated c)
        show ESIZE < size before + (if Repeats before then 0 else 2) ↔ ESIZE < s.ep + 2
        rw [repeated, follows.ep]
        exact Iff.rfl
    | true =>
        rw [if_neg (by rw [follows.repeats, repeated]; exact Bool.false_ne_true)]
        rw [Safe, or_iff_right kept, loops _ _ (follows.repeatLast repeated)]
        refine (and_iff_right ?_).symm
        show ¬ ESIZE < size before + (if Repeats before then 0 else 2)
        rw [repeated]
        exact Nat.not_lt.mpr room'.le
  rw [if_neg one, if_neg one]
  obtain one | one := em (c = dollar)
  · rw [if_pos one, if_pos one]
    cases sp with
    | nil =>
        refine inside_write (not_refused room' (.inr (.inr (.inr rfl)))) ?_ fun _ => ?_
        · show ESIZE < size before + 1 ↔ ESIZE < s.ep + 1
          rw [follows.ep]
        · exact loops_nil _ _ (follows.put rfl rfl rfl nofun nofun)
    | cons d sp =>
        have some' : d ≠ 0 := fun zero => proper' (zero ▸ List.mem_cons_self)
        rw [List.cons_append]
        dsimp only
        rw [if_pos some']
        exact inside_char loops follows room c
  rw [if_neg one, if_neg one]
  obtain one | one := em (c = leftBracket)
  · rw [if_pos one, if_pos one]
    split
    next full =>
      have full' : ESIZE ≤ size before + 17 := follows.ep ▸ full
      refine iff_of_true rfl ?_
      cases sp with
      | nil => exact .inl (.inr trivial)
      | cons d sp =>
          dsimp only
          split
          · exact safe_class full' _ _ _ (Nat.lt_succ_self _)
          · exact safe_class full' _ _ _ (Nat.lt_succ_self _)
    next more =>
      have more' : size before + 17 < ESIZE := follows.ep ▸ Nat.lt_of_not_le more
      cases sp with
      | nil =>
          rw [List.nil_append]
          dsimp only
          rw [if_neg (by decide), classIn_nul]
          exact inside_error (.inr trivial)
      | cons d sp =>
          rw [List.cons_append]
          dsimp only
          split
          · exact inner' _ _ _ _ _ _ follows more'
          · exact inner _ _ _ _ _ _ follows more'
  rw [if_neg one, if_neg one]
  obtain one | one := em (c = backslash)
  · rw [if_pos one, if_pos one]
    cases sp with
    | nil => exact inside_backslash follows room
    | cons d sp => exact inside_escape loops' follows room d
  rw [if_neg one, if_neg one]
  exact inside_char loops follows room c

/-- One character of a class. -/
theorem classLoops_cons {c : UInt8} {sp : List UInt8} (proper : c ≠ 0)
    (loops : Loops sp.tail) (loops' : Loops sp.tail.tail) (inner : ClassLoops sp)
    (inner' : ClassLoops sp.tail) : ClassLoops (c :: sp) := by
  intro s before neg table first e follows room
  rw [List.cons_append, classIn.eq_def, classTokens.eq_def]
  dsimp only
  rw [if_neg proper]
  have kept : ¬ Refused before .hyphen := by
    rintro (full | full)
    · omega
    · exact absurd full (Nat.not_le.mpr room)
  have ends : ∀ neg table first e, Inside (classIn s.setLast neg table first e [0]) ↔
      Safe before [.unclosed] := by
    intro neg table first e
    rw [classIn_nul]
    exact inside_error (.inr trivial)
  cases sp with
  | nil =>
      rw [List.nil_append]
      dsimp only
      obtain range | single := em (c = hyphen ∧ ¬first)
      · rw [if_pos ⟨range.1, range.2, by decide⟩, if_pos range]
        exact iff_of_false (fun same => by cases same) fun safe =>
          (safe.resolve_left kept).1 trivial
      · rw [if_neg fun all => single ⟨all.1, all.2.1⟩, if_neg single, if_neg (by decide)]
        exact ends _ _ _ _
  | cons d sp =>
      rw [List.cons_append]
      dsimp only
      obtain range | single := em (c = hyphen ∧ ¬first ∧ d ≠ rightBracket)
      · rw [if_pos range, if_pos range]
        cases sp with
        | nil =>
            rw [List.nil_append]
            dsimp only
            rw [if_neg (by decide)]
            exact ends _ _ _ _
        | cons f sp =>
            rw [List.cons_append]
            dsimp only
            split
            · exact inside_cls loops' follows room _
            · exact inner' _ _ _ _ _ _ follows room
      · rw [if_neg single, if_neg single]
        split
        · exact inside_cls loops follows room _
        · exact inner _ _ _ _ _ _ follows room

/-- The two loops, by the length of what is left. -/
theorem loops_all (n : ℕ) (sp : List UInt8) (short : sp.length < n) (proper : 0 ∉ sp) :
    Loops sp ∧ ClassLoops sp := by
  induction n generalizing sp with
  | zero => exact absurd short (Nat.not_lt_zero _)
  | succ n ih =>
      cases sp with
      | nil =>
          refine ⟨loops_nil, fun s before neg table first c follows room => ?_⟩
          rw [List.nil_append, classIn_nul]
          exact inside_error (.inr trivial)
      | cons c sp =>
          obtain ⟨here, proper⟩ := not_or.mp (mt List.mem_cons.mpr proper)
          have short' : sp.length < n := Nat.lt_of_succ_lt_succ short
          have tail : sp.tail.length ≤ sp.length := by
            rw [List.length_tail]
            exact Nat.sub_le _ _
          have tail' : sp.tail.tail.length ≤ sp.tail.length := by
            rw [List.length_tail]
            exact Nat.sub_le _ _
          have proper₁ : 0 ∉ sp.tail := mt List.mem_of_mem_tail proper
          have proper₂ : 0 ∉ sp.tail.tail := mt List.mem_of_mem_tail proper₁
          obtain ⟨loops, inner⟩ := ih sp short' proper
          obtain ⟨loops₁, inner₁⟩ := ih sp.tail (tail.trans_lt short') proper₁
          obtain ⟨loops₂, -⟩ := ih sp.tail.tail ((tail'.trans tail).trans_lt short') proper₂
          exact ⟨loops_cons (Ne.symm here) proper loops loops₁ inner inner₁,
            classLoops_cons (Ne.symm here) loops₁ loops₂ inner inner₁⟩

/-! ## What is compiled -/

theorem bind_write_ok {k : Partial → Except Fault (List Item)}
    (done : (s.write item).bind k = .ok items) : k (s.put item) = .ok items := by
  rw [Partial.write] at done
  split at done
  · cases done
  · exact done

theorem bind_escape_ok {k : Partial → Except Fault (List Item)} {d : UInt8}
    (done : (s.writeEscape d).bind k = .ok items) :
    ∃ s', s.escape d = some s' ∧ k s' = .ok items := by
  rw [Partial.writeEscape] at done
  rw [Partial.escape]
  obtain one | one := em (d = leftParen)
  · rw [if_pos one] at done ⊢
    split at done
    next => cases done
    next few =>
      rw [Partial.writeOpening] at done
      split at done
      · cases done
      · rw [bind_map] at done
        exact ⟨_, if_neg few, bind_write_ok done⟩
  rw [if_neg one] at done ⊢
  obtain one | one := em (d = rightParen)
  · rw [if_pos one] at done ⊢
    cases opened : s.bracket with
    | nil =>
        rw [opened] at done
        cases done
    | cons n bracket =>
        rw [opened] at done
        dsimp only at done ⊢
        rw [Partial.writeClosing, bind_map] at done
        exact ⟨_, rfl, bind_write_ok done⟩
  rw [if_neg one] at done ⊢
  obtain one | one := em (digitOne ≤ d ∧ d ≤ digitNine)
  · rw [if_pos one] at done ⊢
    split at done
    next => cases done
    next known => exact ⟨_, if_neg known, bind_write_ok done⟩
  rw [if_neg one] at done ⊢
  exact ⟨_, rfl, bind_write_ok done⟩

/-- What `compileIn` returns without a fault for patterns of less than `n` characters is what
`compileFrom` returns. -/
def LoopsBelow (n : ℕ) : Prop :=
  ∀ s sp items, sp.length < n → compileIn s sp = .ok items → compileFrom s sp = some items

/-- The same of the loop over a class. -/
def ClassesBelow (n : ℕ) : Prop :=
  ∀ s neg table first before sp items, sp.length < n →
    classIn s neg table first before sp = .ok items →
      classFrom s neg table first before sp = some items

theorem LoopsBelow.cons {n : ℕ} {s : Partial} {c : UInt8} {sp : List UInt8} (loop : LoopsBelow n)
    (inner : ClassesBelow n) (short : sp.length < n) (done : compileIn s (c :: sp) = .ok items) :
    compileFrom s (c :: sp) = some items := by
  obtain full | room := em (ESIZE ≤ s.ep)
  · rw [compileIn_full full] at done
    cases done
  rw [compileIn.eq_def] at done
  rw [compileFrom.eq_def]
  dsimp only at done ⊢
  rw [if_neg room] at done ⊢
  obtain one | one := em (c = 0)
  · rw [if_pos one] at done ⊢
    exact congrArg some (Except.ok.inj done)
  rw [if_neg one] at done ⊢
  obtain one | one := em (c = dot)
  · rw [if_pos one] at done ⊢
    exact loop _ _ _ short (bind_write_ok done)
  rw [if_neg one] at done ⊢
  obtain one | one := em (c = asterisk)
  · rw [if_pos one] at done ⊢
    split at done
    next alone =>
      rw [if_pos alone]
      exact loop _ _ _ short (bind_write_ok done)
    next repeated =>
      rw [if_neg repeated]
      exact loop _ _ _ short done
  rw [if_neg one] at done ⊢
  obtain one | one := em (c = dollar)
  · rw [if_pos one] at done ⊢
    cases sp with
    | nil => cases done
    | cons d sp =>
        dsimp only at done ⊢
        split at done
        next plain =>
          rw [if_pos plain]
          exact loop _ _ _ short (bind_write_ok done)
        next last =>
          rw [if_neg last]
          exact loop _ _ _ short (bind_write_ok done)
  rw [if_neg one] at done ⊢
  obtain one | one := em (c = leftBracket)
  · rw [if_pos one] at done ⊢
    split at done
    next => cases done
    next room =>
      rw [if_neg room]
      cases sp with
      | nil => cases done
      | cons d sp =>
          dsimp only at done ⊢
          split at done
          next other =>
            rw [if_pos other]
            exact inner _ _ _ _ _ _ _ (Nat.lt_of_succ_lt short) done
          next plain =>
            rw [if_neg plain]
            exact inner _ _ _ _ _ _ _ short done
  rw [if_neg one] at done ⊢
  obtain one | one := em (c = backslash)
  · rw [if_pos one] at done ⊢
    cases sp with
    | nil => cases done
    | cons d sp =>
        obtain ⟨s', escaped, done⟩ := bind_escape_ok done
        dsimp only
        rw [escaped]
        exact loop _ _ _ (Nat.lt_of_succ_lt short) done
  rw [if_neg one] at done ⊢
  exact loop _ _ _ short (bind_write_ok done)

theorem ClassesBelow.cons {n table : ℕ} {s : Partial} {neg first : Bool} {before c : UInt8}
    {sp : List UInt8} (inner : ClassesBelow n) (loop : LoopsBelow n)
    (short : sp.length < n) (done : classIn s neg table first before (c :: sp) = .ok items) :
    classFrom s neg table first before (c :: sp) = some items := by
  rw [classIn.eq_def] at done
  rw [classFrom.eq_def]
  dsimp only at done ⊢
  obtain one | one := em (c = 0)
  · rw [if_pos one] at done
    cases done
  rw [if_neg one] at done ⊢
  cases sp with
  | nil => cases done
  | cons d sp =>
      dsimp only at done ⊢
      obtain range | single := em (c = hyphen ∧ ¬first ∧ d ≠ rightBracket)
      · rw [if_pos range] at done ⊢
        cases sp with
        | nil => cases done
        | cons e sp =>
            dsimp only at done ⊢
            split at done
            next close =>
              rw [if_pos close]
              exact loop _ _ _ (Nat.lt_of_succ_lt (Nat.lt_of_succ_lt short))
                (bind_write_ok done)
            next more =>
              rw [if_neg more]
              exact inner _ _ _ _ _ _ _ (Nat.lt_of_succ_lt short) done
      · rw [if_neg single] at done ⊢
        split at done
        next close =>
          rw [if_pos close]
          exact loop _ _ _ (Nat.lt_of_succ_lt short) (bind_write_ok done)
        next more =>
          rw [if_neg more]
          exact inner _ _ _ _ _ _ _ short done

theorem compileFrom_of_compileIn (n : ℕ) : LoopsBelow n ∧ ClassesBelow n := by
  induction n with
  | zero => exact ⟨fun _ _ _ short => absurd short (Nat.not_lt_zero _),
      fun _ _ _ _ _ _ _ short => absurd short (Nat.not_lt_zero _)⟩
  | succ n ih =>
      obtain ⟨loop, inner⟩ := ih
      constructor
      · intro s sp items short done
        cases sp with
        | nil =>
            rw [compileIn_nil] at done
            split at done <;> cases done
        | cons c sp => exact loop.cons inner (Nat.lt_of_succ_lt_succ short) done
      · intro s neg table first before sp items short done
        cases sp with
        | nil => cases classIn_nil s neg table first before ▸ done
        | cons c sp => exact inner.cons loop (Nat.lt_of_succ_lt_succ short) done

/-- The compiler with its bounds returns nothing but what `compile` does. -/
theorem compile_of_compileBounds {astr : List UInt8} {circf : Bool}
    (done : compileBounds astr = .ok (items, circf)) : compile astr = some (items, circf) := by
  have loops := fun s sp items => (compileFrom_of_compileIn (sp.length + 1)).1 s sp items
    (Nat.lt_succ_self _)
  cases astr with
  | nil => cases done
  | cons c sp =>
      rw [compileBounds.eq_def] at done
      rw [compile.eq_def]
      dsimp only at done ⊢
      split at done
      next start =>
        rw [if_pos start]
        cases run : compileIn ⟨[], none, [], 0, 0⟩ sp with
        | error fault =>
            rw [run] at done
            cases done
        | ok expbuf =>
            rw [run] at done
            rw [loops _ _ _ run]
            exact congrArg some (Except.ok.inj done)
      next plain =>
        rw [if_neg plain]
        cases run : compileIn ⟨[], none, [], 0, 0⟩ (c :: sp) with
        | error fault =>
            rw [run] at done
            cases done
        | ok expbuf =>
            rw [run] at done
            rw [loops _ _ _ run]
            exact congrArg some (Except.ok.inj done)

/-- An expression without the caret at its beginning. -/
def anchored : List UInt8 → List UInt8
  | [] => []
  | c :: sp => if c = caret then sp else c :: sp

/-- At the beginning nothing has been compiled. -/
theorem follows_nil : Follows ⟨[], none, [], 0, 0⟩ [] where
  ep := rfl
  numbra := rfl
  closed := rfl
  bracket := rfl
  last _ none := by cases none
  repeats := rfl
  nested _ _ here := by cases here
  opened _ mem := absurd mem List.not_mem_nil

/-- For every expression `compile` stays in its arrays, reads nothing behind the NUL and returns
only programs whose groups are nested, exactly when no token strays before one is refused. -/
theorem compile_inside_iff {pattern : List UInt8} (proper : 0 ∉ pattern) :
    Inside ((compileBounds (pattern ++ [0])).map Prod.fst) ↔
        Safe [] (tokens (anchored pattern)) := by
  have forget : ∀ (x : Except Fault (List Item)) (circf : Bool),
      (x.map fun expbuf => (expbuf, circf)).map Prod.fst = x := by
    intro x circf
    cases x with
    | error => rfl
    | ok => rfl
  cases pattern with
  | nil => exact loops_nil _ _ follows_nil
  | cons c sp =>
      rw [List.cons_append, compileBounds, anchored]
      split
      next =>
        rw [forget]
        exact (loops_all _ sp (Nat.lt_succ_self _) (mt (List.mem_cons_of_mem c) proper)).1 _ _
          follows_nil
      next =>
        rw [forget]
        exact (loops_all _ (c :: sp) (Nat.lt_succ_self _) proper).1 _ _ follows_nil

/-- The expression `a*`. -/
theorem compile_inside_iff_star :
    Inside ((compileBounds ([97, 42] ++ [0])).map Prod.fst) ↔
        Safe [] (tokens (anchored [97, 42])) :=
  compile_inside_iff (by decide)

/-- A backslash at the end leads behind the NUL. -/
theorem backslash_strays :
    ¬ ∀ pattern, 0 ∉ pattern → Inside ((compileBounds (pattern ++ [0])).map Prod.fst) := by
  intro inside
  have reads : compileBounds [92, 0] = .error .reads := by decide
  have here := inside [92] (by decide)
  rw [show [92] ++ [(0 : UInt8)] = [92, 0] from rfl, reads] at here
  exact absurd here (fun same => by cases same)

end Grep

end UnixV7
