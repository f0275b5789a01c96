import UnixV7.Kernel.Pipe

/-!
# Runs of a pipe

What each process wrote is what its write calls were given, and what was read is what was
written. A process sleeps only as long as it has a reason to.
-/

namespace UnixV7

open Function

namespace Pipe

variable {ι : Type*} [DecidableEq ι] {s s' : State ι} {l : Place} {p q : ι} {u_offset u_count : ℕ}

/-! ## What each process wrote -/

/-- The pieces in which a write call puts its bytes in the pipe. -/
def pieces (c : List ℕ) : List (List ℕ) :=
  if c.length = 0 then [] else c.take PIPSIZ :: pieces (c.drop PIPSIZ)
termination_by c.length
decreasing_by
  have := List.length_drop (i := PIPSIZ) (l := c)
  have : 0 < PIPSIZ := by decide
  omega

theorem flatten_pieces (c : List ℕ) : (pieces c).flatten = c := by
  fun_induction pieces c with
  | case1 c none => exact (List.eq_nil_of_length_eq_zero none).symm
  | case2 c some ih => rw [List.flatten_cons, ih, List.take_append_drop]

/-- Up to `PIPSIZ` bytes are put in the pipe in one piece. -/
theorem pieces_short {c : List ℕ} (some : c ≠ []) (few : c.length ≤ PIPSIZ) : pieces c = [c] := by
  rw [pieces, if_neg (mt List.eq_nil_of_length_eq_zero some), List.take_of_length_le few,
    List.drop_of_length_le few, pieces, if_pos List.length_nil]

theorem length_pieces_short {c : List ℕ} (few : c.length ≤ PIPSIZ) : (pieces c).length ≤ 1 := by
  rw [pieces]
  split
  · exact Nat.zero_le 1
  · rw [List.drop_of_length_le few, pieces, if_pos List.length_nil]
    exact le_rfl

/-- The pieces of a call that has returned. -/
structure Call.Wrote (call : Call) (ps : List (List ℕ)) : Prop where
  whole : call.u_error = none → ps = pieces call.bytes
  first : call.failed = false → ps <+: pieces call.bytes
  few : ps.length ≤ (pieces call.bytes).length

/-- The pieces of the call that goes on, and those to come. -/
structure User.Left (user : User) (ps rest : List (List ℕ)) : Prop where
  few : ps.length + rest.length = (pieces user.given).length
  same : user.u_error = none → ps ++ rest = pieces user.given

/-- The pieces of the call that goes on, by the place where the process is. -/
def User.Now (user : User) (ps : List (List ℕ)) : Place → Prop
  | .write c => user.Left ps (pieces c)
  | .writei _ now rest => user.Left ps (now :: pieces rest)
  | _ => ps = []

/-- What a process wrote is what its calls were given. -/
structure Recorded (user : User) (wrote : ℕ → List (List ℕ)) (l : Place) : Prop where
  done : ∀ k (call : Call), user.calls[k]? = some call → call.Wrote (wrote k)
  now : user.Now (wrote user.calls.length) l
  later : ∀ k, user.calls.length < k → wrote k = []

/-- A step of `p` leaves alone what the others do. -/
structure Others (p : ι) (s s' : State ι) : Prop where
  user : ∀ q, q ≠ p → s'.u q = s.u q
  wrote : ∀ q, q ≠ p → ∀ k, s'.wrote q k = s.wrote q k

variable {user : User} {wrote : ℕ → List (List ℕ)} {rest : List (List ℕ)}

/-- A call ends, and is noted. -/
theorem Recorded.ended (done : ∀ k (call : Call), user.calls[k]? = some call → call.Wrote (wrote k))
    (left : user.Left (wrote user.calls.length) rest)
    (later : ∀ k, user.calls.length < k → wrote k = []) {e : Option Error}
    (whole : e = none → user.u_error = none ∧ rest = []) :
    Recorded
      ⟨e, user.given, user.calls ++ [⟨user.given, user.u_error.isSome, e⟩]⟩ wrote .idle where
  done k call here := by
    obtain before | ⟨same, rfl⟩ : user.calls[k]? = some call ∨
        k = user.calls.length ∧ call = ⟨user.given, user.u_error.isSome, e⟩ := by
      rw [List.getElem?_append] at here
      split at here
      · exact .inl here
      · rw [List.getElem?_singleton] at here
        split at here
        · exact .inr ⟨by omega, (Option.some.inj here).symm⟩
        · cases here
    · exact done k call before
    · subst same
      refine ⟨fun none => ?_, fun fine => ?_, ?_⟩
      · obtain ⟨fine, rfl⟩ := whole none
        rw [← left.same fine, List.append_nil]
      · rw [← left.same (Option.not_isSome_iff_eq_none.mp (by simpa using fine))]
        exact List.prefix_append _ _
      · have := left.few
        dsimp only
        omega
  now := by
    show wrote _ = []
    rw [List.length_append]
    exact later _ (Nat.lt_succ_self _)
  later k high := by
    rw [List.length_append] at high
    exact later k (Nat.lt_of_succ_lt high)

theorem put_writep (s : State ι) (p : ι) (c : List ℕ) : (s.writep p c).1.put = s.put := by
  rw [State.writep]
  split
  · rfl
  · dsimp only
    split
    · exact put_prele
    · split
      · exact put_prele
      · split
        · exact put_prele
        · rfl

/-- What `writep` does for its caller. -/
theorem writep_cases (s : State ι) (p : ι) (c : List ℕ) :
    (s.writep p c).1.u = s.u ∧ ((s.writep p c).2 = .write c ∨ c = [] ∧ (s.writep p c).2 = .idle ∨
        c ≠ [] ∧ (s.writep p c).2 = .writei s.file.length (c.take PIPSIZ) (c.drop PIPSIZ)) ∨
      (s.writep p c).1.u = (s.fail p .EPIPE).u ∧ (s.writep p c).2 = .idle := by
  rw [State.writep]
  by_cases locked : s.ilock = true
  · rw [if_pos locked]
    exact .inl ⟨rfl, .inl rfl⟩
  rw [if_neg locked]
  dsimp only
  by_cases done : c.length = 0
  · rw [if_pos done]
    exact .inl ⟨u_prele, .inr (.inl ⟨List.eq_nil_of_length_eq_zero done, rfl⟩)⟩
  rw [if_neg done]
  by_cases alone : s.i_count < 2
  · rw [if_pos alone]
    refine .inr ⟨?_, rfl⟩
    rw [State.fail, u_prele, State.fail]
  rw [if_neg alone]
  by_cases full : PIPSIZ ≤ s.file.length
  · rw [if_pos full]
    exact .inl ⟨u_prele, .inl rfl⟩
  · rw [if_neg full]
    exact .inl ⟨rfl, .inr (.inr ⟨mt (congrArg List.length) done, rfl⟩)⟩

theorem wrote_congr (put : s'.put = s.put) : s'.wrote = s.wrote := by
  funext p k
  rw [State.wrote, State.wrote, put]

theorem others_of_u {u : User} (put : s'.put = s.put) (same : s'.u = update s.u p u) :
    Others p s s' where
  user q other := by rw [same, update_of_ne other]
  wrote q _ k := congrFun (congrFun (wrote_congr put) q) k

/-- The pieces that are left after `plock`, and what is noted when there are none. -/
theorem recorded_writing {c : List ℕ}
    (done : ∀ k (call : Call), (s.u p).calls[k]? = some call → call.Wrote (s.wrote p k))
    (left : (s.u p).Left (s.wrote p (s.u p).calls.length) (pieces c))
    (later : ∀ k, (s.u p).calls.length < k → s.wrote p k = []) :
    Recorded ((s.writing p c).1.u p) ((s.writing p c).1.wrote p) (s.writing p c).2 ∧
      Others p s (s.writing p c).1 := by
  have put : (s.writing p c).1.put = s.put := put_writep s p c
  have wrote : (s.writing p c).1.wrote p = s.wrote p := congrFun (wrote_congr put) p
  have place : (s.writing p c).2 = (s.writep p c).2 := rfl
  have user : (s.writing p c).1.u = if (s.writep p c).2 = .idle then
      update (s.writep p c).1.u p ⟨((s.writep p c).1.u p).u_error, ((s.writep p c).1.u p).given,
        ((s.writep p c).1.u p).calls ++ [⟨((s.writep p c).1.u p).given, (s.u p).u_error.isSome,
          ((s.writep p c).1.u p).u_error⟩]⟩
      else (s.writep p c).1.u := rfl
  rw [wrote, place]
  obtain ⟨same, here | ⟨rfl, here⟩ | ⟨some, here⟩⟩ | ⟨same, here⟩ := writep_cases s p c
  · rw [user, here, if_neg (by simp), same]
    exact ⟨⟨done, left, later⟩, ⟨fun q _ => by rw [user, here, if_neg (by simp), same],
      fun q _ k => congrFun (congrFun (wrote_congr put) q) k⟩⟩
  · rw [here, if_pos rfl, same] at user
    have none : pieces [] = [] := by rw [pieces, if_pos List.length_nil]
    refine ⟨?_, others_of_u put user⟩
    rw [user, here, update_self]
    exact .ended done left later fun fine => ⟨fine, none⟩
  · rw [user, here, if_neg (by simp), same]
    refine ⟨⟨done, ?_, later⟩, ⟨fun q _ => by rw [user, here, if_neg (by simp), same],
      fun q _ k => congrFun (congrFun (wrote_congr put) q) k⟩⟩
    rw [pieces, if_neg (mt List.eq_nil_of_length_eq_zero some)] at left
    exact left
  · rw [here, if_pos rfl, same, State.fail] at user
    dsimp only at user
    rw [update_self, update_idem] at user
    refine ⟨?_, others_of_u put user⟩
    rw [user, here, update_self]
    exact .ended done left later fun fine => absurd fine (Option.some_ne_none _)

/-- The pieces when `writei` has returned. -/
theorem wrote_writeDone (p : ι) (u_offset : ℕ) (now : List ℕ) (fault : Option (List ℕ))
    (shared : Shared s) :
    (s.writeDone p u_offset now fault).wrote p (s.u p).calls.length =
        s.wrote p (s.u p).calls.length ++ [s.moves p u_offset now fault] ∧
      (∀ k, k ≠ (s.u p).calls.length → (s.writeDone p u_offset now fault).wrote p k = s.wrote p k) ∧
      ∀ q, q ≠ p → ∀ k, (s.writeDone p u_offset now fault).wrote q k = s.wrote q k := by
  obtain ⟨-, -, -, put, -⟩ :=
    writeDone_fields s p u_offset now fault shared.want fun q here => (shared.readers q here).1
  have wrote : ∀ q k, (s.writeDone p u_offset now fault).wrote q k = s.wrote q k ++
      if p = q ∧ (s.u p).calls.length = k then [s.moves p u_offset now fault] else [] := by
    intro q k
    rw [State.wrote, put, State.added, List.filter_append, List.map_append]
    congr 1
    by_cases same : p = q ∧ (s.u p).calls.length = k
    · rw [if_pos same,
        List.filter_eq_self.mpr (List.forall_mem_singleton.mpr (by simpa using same))]
      rfl
    · rw [if_neg same,
        List.filter_eq_nil_iff.mpr (List.forall_mem_singleton.mpr (by simpa using same))]
      rfl
  refine ⟨?_, fun k other => ?_, fun q other k => ?_⟩
  · rw [wrote, if_pos ⟨rfl, rfl⟩]
  · rw [wrote, if_neg fun both => other both.2.symm, List.append_nil]
  · rw [wrote, if_neg fun both => other both.1.symm, List.append_nil]

/-- `writei` puts one piece in the pipe, the right one unless a transfer of the call failed. -/
theorem recorded_writeDone {now rest : List ℕ} (shared : Shared s)
    (record : Recorded (s.u p) (s.wrote p) (.writei u_offset now rest))
    (fault : Option (List ℕ)) :
    let r := (s.writeDone p u_offset now fault).writing p rest
    Recorded (r.1.u p) (r.1.wrote p) r.2 ∧ Others p s r.1 := by
  obtain ⟨this, before, others⟩ := wrote_writeDone p u_offset now fault shared
  obtain ⟨-, -, -, -, user, -⟩ :=
    writeDone_fields s p u_offset now fault shared.want fun q here => (shared.readers q here).1
  let t := s.writeDone p u_offset now fault
  have left : (s.u p).Left (s.wrote p (s.u p).calls.length) (now :: pieces rest) := record.now
  have here : t.u p = { s.u p with
      u_error := if fault.isSome then some .EFAULT else (s.u p).u_error } := by
    show (s.writeDone p u_offset now fault).u p = _
    rw [user, State.added]
    dsimp only
    cases fault with
    | none => rfl
    | some bytes => exact update_self _ _ _
  have there : ∀ q, q ≠ p → t.u q = s.u q := by
    intro q other
    show (s.writeDone p u_offset now fault).u q = _
    rw [user, State.added]
    dsimp only
    cases fault with
    | none => rfl
    | some bytes => exact update_of_ne other _ _
  have step := recorded_writing (s := t) (p := p) (c := rest) ?_ ?_ ?_
  · exact ⟨step.1, ⟨fun q other => (step.2.user q other).trans (there q other),
      fun q other k => (step.2.wrote q other k).trans (others q other k)⟩⟩
  · intro k call found
    rw [here] at found
    have older := (List.getElem?_eq_some_iff.mp found).1
    rw [show t.wrote p k = s.wrote p k from before k (by dsimp only at older; omega)]
    exact record.done k call found
  · rw [here]
    dsimp only
    rw [show t.wrote p (s.u p).calls.length = _ from this]
    refine ⟨?_, fun fine => ?_⟩
    · have := left.few
      rw [List.length_cons] at this
      rw [List.length_append, List.length_singleton]
      dsimp only
      omega
    · obtain ⟨rfl, clean⟩ : fault = none ∧ (s.u p).u_error = none := by
        cases fault with
        | none => exact ⟨rfl, fine⟩
        | some bytes => cases fine
      have all : s.moves p u_offset now none = now := by
        rw [State.moves, Option.elim_none, if_pos (Option.isNone_iff_eq_none.mpr clean)]
      rw [all, List.append_assoc]
      exact left.same clean
  · intro k high
    rw [here] at high
    dsimp only at high
    rw [show t.wrote p k = s.wrote p k from before k (by omega)]
    exact record.later k high

/-- The process is not in a write call. -/
def Place.Reads : Place → Prop
  | .write _ => False
  | .writei _ _ _ => False
  | _ => True

theorem now_iff_of_reads {ps : List (List ℕ)} (reads : l.Reads) : user.Now ps l ↔ ps = [] := by
  cases l with
  | write c => exact reads.elim
  | writei u_offset now rest => exact reads.elim
  | _ => rfl

theorem Others.trans {s'' : State ι} (first : Others p s s') (second : Others p s' s'') :
    Others p s s'' where
  user q other := (second.user q other).trans (first.user q other)
  wrote q other k := (second.wrote q other k).trans (first.wrote q other k)

/-- Outside a write call nothing is written. -/
theorem recorded_reads {l' : Place} (record : Recorded (s.u p) (s.wrote p) l) (reads : l.Reads)
    (reads' : l'.Reads) (put : s'.put = s.put) (same : s'.u = update s.u p user)
    (calls : user.calls = (s.u p).calls) :
    Recorded (s'.u p) (s'.wrote p) l' ∧ Others p s s' := by
  refine ⟨?_, others_of_u put same⟩
  rw [same, update_self, congrFun (wrote_congr put) p]
  refine ⟨?_, ?_, ?_⟩
  · rw [calls]
    exact record.done
  · rw [now_iff_of_reads reads', calls]
    exact (now_iff_of_reads reads).mp record.now
  · rw [calls]
    exact record.later

theorem readp_fields (s : State ι) (p : ι) (u_count : ℕ) :
    (s.readp p u_count).1.put = s.put ∧ (s.readp p u_count).1.u = s.u ∧
      (s.readp p u_count).2.Reads := by
  rw [State.readp]
  split
  · exact ⟨rfl, rfl, trivial⟩
  · dsimp only
    split
    · split
      · exact ⟨put_prele, u_prele, trivial⟩
      · exact ⟨put_prele, u_prele, trivial⟩
    · exact ⟨rfl, rfl, trivial⟩

theorem closef_fields (s : State ι) (p : ι) :
    (s.closef p).1.put = s.put ∧ (s.closef p).1.u = s.u ∧ (s.closef p).2.Reads := by
  rw [State.closef]
  split
  · exact ⟨rfl, rfl, trivial⟩
  · exact ⟨put_prele, u_prele, trivial⟩

theorem readDone_fields (s : State ι) (p : ι) (u_offset u_count : ℕ) (fault : Option ℕ) :
    (s.readDone p u_offset u_count fault).1.put = s.put ∧
      (s.readDone p u_offset u_count fault).1.u =
        if fault.isSome then (s.fail p .EFAULT).u else s.u := by
  rw [readDone_eq]
  let t := s.taken p u_offset u_count fault
  have fields : t.reset.put = t.put ∧ t.reset.u = t.u := by
    rw [State.reset]
    dsimp only
    split <;> exact ⟨rfl, rfl⟩
  show (if t.f_offset = t.file.length then t.reset.prele else t.prele).put = t.put ∧
    (if t.f_offset = t.file.length then t.reset.prele else t.prele).u = t.u
  split
  · exact ⟨put_prele.trans fields.1, u_prele.trans fields.2⟩
  · exact ⟨put_prele, u_prele⟩

theorem interrupt_fields (s : State ι) (p : ι) :
    (s.interrupt p).put = s.put ∧
      (s.interrupt p).u = update s.u p { s.u p with
        u_error := if (s.u p).u_error.isNone then some .EINTR else (s.u p).u_error } := by
  rw [State.interrupt]
  dsimp only
  rw [fail_if]
  refine ⟨rfl, ?_⟩
  dsimp only
  cases (s.u p).u_error.isNone
  · exact (update_eq_self p s.u).symm
  · rfl

/-- A write call that a signal ends is noted with an error. -/
theorem recorded_interrupt {c : List ℕ} (record : Recorded (s.u p) (s.wrote p) (.write c)) :
    let r := State.ended p (s.u p).u_error.isSome (s.interrupt p, .idle)
    Recorded (r.1.u p) (r.1.wrote p) r.2 ∧ Others p s r.1 := by
  obtain ⟨put, user⟩ := interrupt_fields s p
  let e := if (s.u p).u_error.isNone then some Error.EINTR else (s.u p).u_error
  let r := State.ended p (s.u p).u_error.isSome (s.interrupt p, .idle)
  have noted : r.1.u = update s.u p ⟨e, (s.u p).given,
      (s.u p).calls ++ [⟨(s.u p).given, (s.u p).u_error.isSome, e⟩]⟩ := by
    show update (s.interrupt p).u p _ = _
    rw [user, update_idem, update_self]
  have wrote : r.1.wrote p = s.wrote p := congrFun (wrote_congr put) p
  have some : e ≠ none := by
    show (if _ then _ else _) ≠ none
    cases same : (s.u p).u_error <;> simp
  refine ⟨?_, others_of_u put noted⟩
  show Recorded (r.1.u p) (r.1.wrote p) .idle
  rw [noted, wrote, update_self]
  exact .ended record.done record.now record.later fun none => absurd none some

/-- All that the processes do is recorded. -/
theorem recorded_next {e : Event} {l' : Place} (shared : Shared s)
    (record : Recorded (s.u p) (s.wrote p) l)
    (stepped : (system ι).next p e s l = some (s', l')) :
    Recorded (s'.u p) (s'.wrote p) l' ∧ Others p s s' := by
  have reads : ∀ {t : State ι} {user} {r : State ι × Place}, l.Reads → t.put = s.put →
      t.u = update s.u p user → user.calls = (s.u p).calls →
      r.1.put = t.put ∧ r.1.u = t.u ∧ r.2.Reads →
      some r = some (s', l') → Recorded (s'.u p) (s'.wrote p) l' ∧ Others p s s' := by
    intro t user r reads put same calls fields equal
    obtain rfl := Option.some.inj equal
    exact recorded_reads record reads fields.2.2 (fields.1.trans put) (fields.2.1.trans same) calls
  have exact' : ∀ {result : State ι × Place},
      Recorded (result.1.u p) (result.1.wrote p) result.2 ∧ Others p s result.1 →
      some result = some (s', l') → Recorded (s'.u p) (s'.wrote p) l' ∧ Others p s s' := by
    intro result found equal
    obtain rfl := Option.some.inj equal
    exact found
  have still : s.u = update s.u p (s.u p) := (update_eq_self p s.u).symm
  cases l with
  | idle =>
      cases e with
      | read u_count =>
          exact reads (t := s.enter p []) trivial rfl rfl rfl (readp_fields _ p u_count) stepped
      | close => exact reads (t := s.enter p []) trivial rfl rfl rfl (closef_fields _ p) stepped
      | write c =>
          have user : (s.enter p c).u p = ⟨none, c, (s.u p).calls⟩ := update_self _ _ _
          have nothing : s.wrote p (s.u p).calls.length = [] := record.now
          have step := recorded_writing (s := s.enter p c) (p := p) (c := c) ?_ ?_ ?_
          · have entered : Others p s (s.enter p c) := others_of_u rfl rfl
            exact exact' ⟨step.1, entered.trans step.2⟩ stepped
          · rw [user]
            exact record.done
          · rw [user]
            show User.Left _ (s.wrote p (s.u p).calls.length) _
            rw [nothing]
            exact ⟨Nat.zero_add _, fun _ => rfl⟩
          · rw [user]
            exact record.later
      | _ => cases stepped
  | read u_count =>
      cases e with
      | run =>
          obtain ⟨-, same⟩ := Option.ite_none_right_eq_some.mp stepped
          exact reads trivial rfl still rfl (readp_fields s p u_count) same
      | signal =>
          obtain ⟨-, same⟩ := Option.ite_none_right_eq_some.mp stepped
          obtain ⟨put, user⟩ := interrupt_fields s p
          exact reads (r := (s.interrupt p, .idle)) trivial put user rfl ⟨rfl, rfl, trivial⟩
            same
      | _ => cases stepped
  | close =>
      cases e with
      | run =>
          obtain ⟨-, same⟩ := Option.ite_none_right_eq_some.mp stepped
          exact reads trivial rfl still rfl (closef_fields s p) same
      | _ => cases stepped
  | readi u_offset u_count =>
      have done : ∀ fault, Recorded ((s.readDone p u_offset u_count fault).1.u p)
          ((s.readDone p u_offset u_count fault).1.wrote p) .idle ∧
            Others p s (s.readDone p u_offset u_count fault).1 := by
        intro fault
        obtain ⟨put, user⟩ := readDone_fields s p u_offset u_count fault
        cases fault with
        | none => exact recorded_reads record trivial trivial put (user.trans still) rfl
        | some n => exact recorded_reads record trivial trivial put user rfl
      cases e with
      | run => exact exact' (done none) stepped
      | fault bytes => exact exact' (done (some bytes.length)) stepped
      | _ => cases stepped
  | write c =>
      cases e with
      | run =>
          obtain ⟨-, same⟩ := Option.ite_none_right_eq_some.mp stepped
          exact exact' (recorded_writing record.done record.now record.later) same
      | signal =>
          obtain ⟨-, same⟩ := Option.ite_none_right_eq_some.mp stepped
          exact exact' (recorded_interrupt record) same
      | _ => cases stepped
  | writei u_offset now rest =>
      cases e with
      | run => exact exact' (recorded_writeDone shared record none) stepped
      | fault bytes => exact exact' (recorded_writeDone shared record (some bytes)) stepped
      | _ => cases stepped

/-! ## All processes -/

/-- The pipe with its processes. -/
structure Sound (w : World ι (State ι) Place) : Prop where
  shared : Shared w.shared
  lock : w.shared.ilock = true ↔ ∃ p, (w.loc p).Holds
  one : ∀ p q, (w.loc p).Holds → (w.loc q).Holds → p = q
  fits : ∀ p, Fits w.shared (w.loc p)
  asleep : ∀ p c, w.shared.wchan p = some c → (w.loc p).Waits c
  record : ∀ p, Recorded (w.shared.u p) (w.shared.wrote p) (w.loc p)

/-- One process moves while the others stand still. -/
theorem Sound.next {w : World ι (State ι) Place} (sound : Sound w)
    (moved : Moved w.shared (w.loc p).Holds p s l) (own : ∀ c, s.wchan p = some c → l.Waits c)
    (record : Recorded (s.u p) (s.wrote p) l) (apart : Others p w.shared s) :
    Sound ⟨s, update w.loc p l⟩ := by
  have others : ∀ q, q ≠ p → (w.loc q).Holds → w.shared.ilock = true ∧ ¬(w.loc p).Holds :=
    fun q other holds => ⟨sound.lock.mpr ⟨q, holds⟩, fun here => other (sound.one q p holds here)⟩
  refine ⟨moved.shared, ?_, fun q r first second => ?_, fun q => ?_, fun q c here => ?_,
    fun q => ?_⟩
  · rw [moved.lock]
    constructor
    · rintro (holds | ⟨locked, free⟩)
      · exact ⟨p, by simpa only [update_self] using holds⟩
      · obtain ⟨q, holds⟩ := sound.lock.mp locked
        have other : q ≠ p := fun same => free (same ▸ holds)
        exact ⟨q, by simpa only [update_of_ne other] using holds⟩
    · rintro ⟨q, holds⟩
      by_cases same : q = p
      · subst same
        simp only [update_self] at holds
        exact .inl holds
      · simp only [update_of_ne same] at holds
        exact .inr (others q same holds)
  · -- who gets the lock finds it free
    have apart : ∀ q, q ≠ p → (w.loc q).Holds → ¬l.Holds := fun q other holds =>
      (moved.locked (others q other holds).1 (others q other holds).2).1
    by_cases same : q = p
    · by_cases same' : r = p
      · exact same.trans same'.symm
      · subst same
        simp only [update_self] at first
        simp only [update_of_ne same'] at second
        exact absurd first (apart r same' second)
    · simp only [update_of_ne same] at first
      by_cases same' : r = p
      · subst same'
        simp only [update_self] at second
        exact absurd second (apart q same first)
      · simp only [update_of_ne same'] at second
        exact sound.one q r first second
  · by_cases same : q = p
    · subst same
      simp only [update_self]
      exact moved.fits
    · simp only [update_of_ne same]
      by_cases holds : (w.loc q).Holds
      · obtain ⟨-, file, offset⟩ :=
          moved.locked (others q same holds).1 (others q same holds).2
        exact (sound.fits q).congr file offset
      · exact fits_of_not_holds holds
  · by_cases same : q = p
    · subst same
      simp only [update_self]
      exact own c here
    · simp only [update_of_ne same]
      exact sound.asleep q c ((moved.asleep q c here).resolve_right fun both => same both.1)
  · by_cases same : q = p
    · subst same
      simp only [update_self]
      exact record
    · have wrote : s.wrote q = w.shared.wrote q := funext (apart.wrote q same)
      simp only [update_of_ne same, apart.user q same, wrote]
      exact sound.record q

/-- What holds in every world that is reached. -/
theorem sound_of_run {w : World ι (State ι) Place}
    (run : (system ι).Reachable (· = State.pipe) w) : Sound w := by
  refine run.invariant Sound (fun s first => ?_) fun w p e s l sound _ stepped => ?_
  · subst first
    exact ⟨⟨rfl, .inr ⟨rfl, rfl⟩, (by decide : 0 < 2 * PIPSIZ),
      fun p here => (Option.some_ne_none _ here.symm).elim,
      fun p here => (Option.some_ne_none _ here.symm).elim,
      fun p here => (Option.some_ne_none _ here.symm).elim⟩,
      ⟨fun no => absurd no Bool.false_ne_true, fun any => any.elim fun p holds => holds.elim⟩,
      fun p q holds => holds.elim, fun p => trivial,
      fun p c here => (Option.some_ne_none _ here.symm).elim,
      fun p => ⟨fun k call here => (Option.some_ne_none _ here.symm).elim, rfl, fun k _ => rfl⟩⟩
  · obtain ⟨moved, own⟩ := moved_next sound.shared (sound.fits p) (sound.asleep p) stepped
    obtain ⟨record, apart⟩ := recorded_next sound.shared (sound.record p) stepped
    exact sound.next moved own record apart

/-- `readp` returns at once only from a pipe that is empty and has an end closed. -/
theorem readp_idle {u_count : ℕ} (idle : (s.readp p u_count).2 = .idle) :
    s.file = [] ∧ s.i_count < 2 := by
  rw [State.readp] at idle
  by_cases locked : s.ilock = true
  · rw [if_pos locked] at idle
    cases idle
  rw [if_neg locked] at idle
  dsimp only at idle
  by_cases empty : s.file.length = 0
  · rw [if_pos empty] at idle
    refine ⟨List.eq_nil_of_length_eq_zero empty, ?_⟩
    by_contra both
    rw [if_neg (by rwa [i_count_prele])] at idle
    cases idle
  · rw [if_neg empty] at idle
    cases idle

/-- A pipe, in whatever order processes read, write and close it, whatever transfers fail and
whoever a signal interrupts: what was read is what was written, less the part that is still in the
file; a write call that returns without an error has put its bytes in the pipe, in their order and
in pieces of `PIPSIZ`, and one that a signal or a closed end has cut short the first of these
pieces. The file never gets twice as large as `PIPSIZ`, one process at a time has the lock, and a
read of at least one byte gets nothing only from an empty pipe with an end closed. Who sleeps for
the lock sleeps while another one has it, who sleeps for data while there is none and a writer that
can still write, and who sleeps for room while there is none and a reader that can still read. -/
theorem pipe_runs {w : World ι (State ι) Place}
    (run : (system ι).Reachable (· = State.pipe) w) :
    w.shared.gotten ++ w.shared.file.drop w.shared.f_offset = w.shared.written ∧
      (∀ p k (call : Call), (w.shared.u p).calls[k]? = some call →
        (call.u_error = none → w.shared.wrote p k = pieces call.bytes ∧
          (w.shared.wrote p k).flatten = call.bytes) ∧
          (call.failed = false → w.shared.wrote p k <+: pieces call.bytes)) ∧
      w.shared.file.length < 2 * PIPSIZ ∧
      (∀ p q, (w.loc p).Holds → (w.loc q).Holds → p = q) ∧
      (∀ p n, (w.shared.readp p n).2 = .idle → w.shared.file = [] ∧ w.shared.i_count < 2) ∧
      (∀ p u_offset n, w.loc p = .readi u_offset n → 0 < n → ∃ bytes, bytes ≠ [] ∧
        (w.shared.readDone p u_offset n none).1.got = w.shared.got ++ [(p, bytes)]) ∧
      (∀ p, w.shared.wchan p = some .inode → ∃ q, q ≠ p ∧ (w.loc q).Holds) ∧
      (∀ p, w.shared.wchan p = some .readers → w.shared.file = [] ∧ 2 ≤ w.shared.i_count) ∧
      ∀ p, w.shared.wchan p = some .writers →
        PIPSIZ ≤ w.shared.file.length ∧ 2 ≤ w.shared.i_count := by
  have sound := sound_of_run run
  refine ⟨sound.shared.fifo, fun p k call here => ?_, sound.shared.size, sound.one,
    fun p n idle => readp_idle idle, fun p u_offset n here => got_readDone (here ▸ sound.fits p),
    fun p here => ?_, fun p here => (sound.shared.readers p here).2,
      fun p here => (sound.shared.writers p here).2⟩
  · have recorded := (sound.record p).done k call here
    refine ⟨fun fine => ⟨recorded.whole fine, ?_⟩, recorded.first⟩
    rw [recorded.whole fine, flatten_pieces]
  · obtain ⟨q, holds⟩ := sound.lock.mp (sound.shared.inode p here).2
    refine ⟨q, ?_, holds⟩
    rintro rfl
    exact (sound.asleep q _ here).not_holds holds

/-- A reader waits for data, a writer brings five bytes and returns, and the reader takes two of
them; another write fails when one of its three bytes is in the pipe. -/
theorem pipe_runs_two :
    ∃ w, (system Bool).Reachable (· = State.pipe) w ∧ w.shared.got = [(false, [104, 101])] ∧
      w.shared.file = [104, 101, 108, 108, 111, 33] ∧
      w.shared.gotten ++ w.shared.file.drop w.shared.f_offset = w.shared.written ∧
      w.shared.wrote true 0 = pieces [104, 101, 108, 108, 111] := by
  have run : (system Bool).Reachable (· = State.pipe) _ := System.reachable_of_exec
    [(false, .read 2), (true, .write [104, 101, 108, 108, 111]), (true, .run), (false, .run),
      (false, .run), (true, .write [33, 33, 33]), (true, .fault [33])] rfl rfl
  have runs := pipe_runs run
  exact ⟨_, run, rfl, rfl, runs.1, ((runs.2.1 true 0 _ rfl).1 rfl).1⟩

/-- A pipe gives the bytes in the order in which they were put in it, those of a write of at most
`PIPSIZ` bytes together. A read of at least one byte gets nothing only from an empty pipe with an
end closed, and nobody sleeps for data while there is some, or for room in an empty pipe. -/
theorem pipe_fifo {w : World ι (State ι) Place}
    (run : (system ι).Reachable (· = State.pipe) w) :
    w.shared.gotten <+: w.shared.written ∧
      (∀ p k (call : Call), (w.shared.u p).calls[k]? = some call → call.bytes.length ≤ PIPSIZ →
        (w.shared.wrote p k).length ≤ 1 ∧
          (call.u_error = none → call.bytes ≠ [] → w.shared.wrote p k = [call.bytes])) ∧
      w.shared.file.length < 2 * PIPSIZ ∧
      (∀ p n, (w.shared.readp p n).2 = .idle → w.shared.file = [] ∧ w.shared.i_count < 2) ∧
      (∀ p u_offset n, w.loc p = .readi u_offset n → 0 < n → ∃ bytes, bytes ≠ [] ∧
        (w.shared.readDone p u_offset n none).1.got = w.shared.got ++ [(p, bytes)]) ∧
      (∀ p, w.shared.wchan p = some .readers → w.shared.file = []) ∧
      ∀ p, w.shared.wchan p = some .writers → w.shared.file ≠ [] := by
  have sound := sound_of_run run
  refine ⟨⟨_, sound.shared.fifo⟩, fun p k call here short => ?_, sound.shared.size,
    fun p n idle => readp_idle idle, fun p u_offset n here some => ?_,
    fun p here => (sound.shared.readers p here).2.1, fun p here nothing => ?_⟩
  · have recorded := (sound.record p).done k call here
    refine ⟨recorded.few.trans (length_pieces_short short), fun fine some => ?_⟩
    rw [recorded.whole fine, pieces_short some short]
  · exact got_readDone (here ▸ sound.fits p) some
  · have full := (sound.shared.writers p here).2.1
    rw [nothing] at full
    exact absurd full (by decide)

theorem pipe_fifo_two :
    ∃ w, (system Bool).Reachable (· = State.pipe) w ∧ w.shared.gotten = [104, 101] ∧
      w.shared.gotten <+: w.shared.written ∧ w.shared.wrote true 0 = [[104, 101, 108]] := by
  have run : (system Bool).Reachable (· = State.pipe) _ := System.reachable_of_exec
    [(true, .write [104, 101, 108]), (true, .run), (false, .read 2), (false, .run)] rfl rfl
  have fifo := pipe_fifo run
  exact ⟨_, run, rfl, fifo.1, (fifo.2.1 true 0 _ rfl (by decide)).2 rfl (by decide)⟩

/-- A read of no bytes gets none from a pipe that has some, with both ends open. -/
theorem empty_read :
    ∃ w, (system Bool).Reachable (· = State.pipe) w ∧ w.loc false = .readi 0 0 ∧
      w.shared.file ≠ [] ∧ w.shared.i_count = 2 ∧
      (w.shared.readDone false 0 0 none).2 = .idle ∧
      (w.shared.readDone false 0 0 none).1.got = w.shared.got ++ [(false, [])] := by
  have run : (system Bool).Reachable (· = State.pipe) _ := System.reachable_of_exec
    [(true, .write [104]), (true, .run), (false, .read 0)] rfl rfl
  exact ⟨_, run, rfl, by decide, rfl, rfl, rfl⟩

/-- A process in a call that cannot go on sleeps. -/
theorem asleep_of_stuck (stuck : (system ι).next p .run s l = none) (busy : l ≠ .idle) :
    ∃ c, s.wchan p = some c := by
  have sleeps : ∀ {result : State ι × Place},
      (if s.wchan p = none then some result else none) = none → ∃ c, s.wchan p = some c := by
    intro result none
    refine Option.ne_none_iff_exists'.mp fun awake => ?_
    rw [if_pos awake] at none
    cases none
  cases l with
  | idle => exact absurd rfl busy
  | read u_count => exact sleeps stuck
  | readi u_offset u_count => cases stuck
  | write c => exact sleeps stuck
  | writei u_offset now rest => cases stuck
  | close => exact sleeps stuck

/-- There is no deadlock. When no process in a call can go on, either all of them wait for data
in an empty pipe or all of them wait for room in a full one, and both of its ends are open. -/
theorem stuck_alike {w : World ι (State ι) Place}
    (run : (system ι).Reachable (· = State.pipe) w)
    (stuck : ∀ p, (system ι).next p .run w.shared (w.loc p) = none) (busy : w.loc p ≠ .idle) :
    2 ≤ w.shared.i_count ∧
      ((w.shared.file = [] ∧ ∀ q, w.loc q ≠ .idle → w.shared.wchan q = some .readers) ∨
        PIPSIZ ≤ w.shared.file.length ∧
          ∀ q, w.loc q ≠ .idle → w.shared.wchan q = some .writers) := by
  have sound := sound_of_run run
  -- who has the lock can go on, so that nobody waits for it
  have free : ∀ q, w.shared.wchan q ≠ some .inode := by
    intro q here
    obtain ⟨r, holds⟩ := sound.lock.mp (sound.shared.inode q here).2
    have busy' : w.loc r ≠ .idle := fun idle => by rwa [idle] at holds
    obtain ⟨c, asleep⟩ := asleep_of_stuck (stuck r) busy'
    exact (sound.asleep r c asleep).not_holds holds
  have either : ∀ q, w.loc q ≠ .idle →
      w.shared.wchan q = some .readers ∨ w.shared.wchan q = some .writers := by
    intro q busy'
    obtain ⟨c, asleep⟩ := asleep_of_stuck (stuck q) busy'
    cases c with
    | inode => exact absurd asleep (free q)
    | readers => exact .inl asleep
    | writers => exact .inr asleep
  have apart : ∀ q r, w.shared.wchan q = some .readers → w.shared.wchan r ≠ some .writers := by
    intro q r reads writes
    have full := (sound.shared.writers r writes).2.1
    rw [(sound.shared.readers q reads).2.1] at full
    exact absurd full (by decide)
  obtain reads | writes := either p busy
  · have here := (sound.shared.readers p reads).2
    exact ⟨here.2, .inl ⟨here.1, fun q busy' => (either q busy').resolve_right (apart p q reads)⟩⟩
  · have here := (sound.shared.writers p writes).2
    exact ⟨here.2, .inr ⟨here.1,
      fun q busy' => (either q busy').resolve_left fun reads => apart q p reads writes⟩⟩

/-- Two readers wait for data. -/
theorem stuck_alike_readers :
    ∃ w, (system Bool).Reachable (· = State.pipe) w ∧
      ((w.shared.file = [] ∧ ∀ q, w.loc q ≠ .idle → w.shared.wchan q = some .readers) ∨
        PIPSIZ ≤ w.shared.file.length ∧
          ∀ q, w.loc q ≠ .idle → w.shared.wchan q = some .writers) ∧
      ∀ q, w.loc q ≠ .idle := by
  have run : (system Bool).Reachable (· = State.pipe) _ :=
    System.reachable_of_exec [(false, .read 2), (true, .read 3)] rfl rfl
  have busy : ∀ n, Place.read n ≠ .idle := fun n => by simp
  have stuck := stuck_alike (p := false) run (fun p => by cases p <;> rfl) (busy 2)
  exact ⟨_, run, stuck.2, fun q => by cases q; exacts [busy 2, busy 3]⟩

end Pipe

end UnixV7
