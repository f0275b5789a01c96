import UnixV7.Kernel.Wakeup

/-!
# When a wakeup is lost

The swapper sleeps on `&runout`. When that address falls in the bucket which `wakeup` walks, the
wakeup that `setrun` makes for the first process out of core takes the swapper off the very
chain. The outer walk is led astray just when the swapper is the process it goes to next while
another waits behind, or the one it unlinks the next process behind.
-/

namespace UnixV7

open Fuel Function

namespace Queues

variable {s s' : Queues} {slp slp' : ℕ → List ProcId} {rq rq' kept rest : List ProcId}
  {chan : Chan} {p : ProcId} {prev : Option ProcId}

/-- The process runs: it is on the run queue exactly once, waiting for nothing. -/
def Ready (s : Queues) (p : ProcId) : Prop :=
  (s.proc p).p_stat = .SRUN ∧ (s.proc p).p_wchan = 0 ∧
    ∃ rq, Chain s.link s.runq rq ∧ rq.count p = 1

/-- Some process that `chan` wakes is out of core. -/
def WakesSwapped (s : Queues) (slp : ℕ → List ProcId) (chan : Chan) : Prop :=
  ∃ bucket, ∃ p ∈ slp bucket, s.wakes chan p = true ∧ (s.proc p).loaded = false

/-- The swapper sleeps on `&runout`, and `wakeup(chan)` makes a process runnable that it has to
bring in. -/
def WakesSwapper (s : Queues) (slp : ℕ → List ProcId) (chan : Chan) : Prop :=
  0 ∈ slp (HASH s.runoutAddr) ∧ s.wakes s.runoutAddr 0 = true ∧ s.WakesSwapped slp chan

/-- What `wakeup(chan)` is for, from the queues before to the queues after. -/
structure AllWoken (s : Queues) (slp : ℕ → List ProcId) (chan : Chan) (s' : Queues) : Prop where
  woken : ∀ bucket, ∀ p ∈ slp bucket, s.wakes chan p = true → s'.Ready p
  swapper : s.WakesSwapper slp chan → s'.Ready 0
  others : ∀ bucket, ∀ p ∈ slp bucket, s.wakes chan p = false →
    ¬(p = 0 ∧ s.WakesSwapper slp chan) →
      (s'.proc p).p_wchan = (s.proc p).p_wchan ∧
        ∃ l, Chain s'.link (s'.slpque (HASH (s'.proc p).p_wchan)) l ∧ p ∈ l

/-- Whether the walk is led astray at the first process it finds out of core: the swapper comes
next and another process to wake behind it, or the swapper was passed last and another process
to wake comes next. -/
def strands (s : Queues) (chan : Chan) : Option ProcId → List ProcId → Bool
  | _, [] => false
  | prev, p :: rest =>
      if s.wakes chan p then
        if (s.proc p).loaded then
          s.strands chan prev rest
        else
          s.wakes s.runoutAddr 0 &&
            (rest.head? == some 0 && rest.tail.any (s.wakes chan) ||
              prev == some 0 && rest.head?.any (s.wakes chan))
      else
        s.strands chan (some p) rest

/-- The states in which `wakeup(chan)` does what it is for. -/
structure Spared (s : Queues) (slp : ℕ → List ProcId) (chan : Chan) : Prop where
  pointers : s.runout ≠ 0 → s.strands chan none (slp (HASH chan)) = false
  flag : s.runout = 0 → chan ≠ s.runoutAddr → ¬s.WakesSwapper slp chan

/-! ## The processes a channel wakes -/

theorem WellFormed.bucket_of_wakes {bucket : ℕ} (wf : s.WellFormed slp rq)
    (member : p ∈ slp bucket) (woken : s.wakes chan p = true) : bucket = HASH chan := by
  rw [← wf.bucket_eq bucket p member, (wakes_spec woken).1]

/-- Only the swapper is woken by `&runout`. -/
theorem WellFormed.filter_runout (wf : s.WellFormed slp rq) (bucket : ℕ) :
    (slp bucket).filter (s.wakes s.runoutAddr) =
      if 0 ∈ slp bucket ∧ s.wakes s.runoutAddr 0 = true then [0] else [] := by
  have only : ∀ p ∈ slp bucket, s.wakes s.runoutAddr p = true → p = 0 :=
    fun p member woken => wf.swapper bucket p member (wakes_spec woken).1
  have distinct := (wf.slp_nodup bucket).filter (s.wakes s.runoutAddr)
  split
  · next present =>
      have inside : 0 ∈ (slp bucket).filter (s.wakes s.runoutAddr) :=
        List.mem_filter.mpr present
      match found : (slp bucket).filter (s.wakes s.runoutAddr) with
      | [] => simp [found] at inside
      | [p] => simp [found] at inside; rw [← inside]
      | p :: q :: more =>
          have zero : ∀ r ∈ p :: q :: more, r = 0 := by
            intro r mem
            rw [← found] at mem
            obtain ⟨here, woken⟩ := List.mem_filter.mp mem
            exact only r here woken
          rw [found, zero p (by simp), zero q (by simp)] at distinct
          simp at distinct
  · next absent =>
      refine List.filter_eq_nil_iff.mpr fun p member woken => absent ?_
      obtain rfl := only p member woken
      exact ⟨member, woken⟩

/-- A process of a walked queue is among those taken off or among those left. -/
theorem mem_filter_or {bucket walked : ℕ} (kept front back : List ProcId)
    (taken : ProcId → Bool)
    (here : slp walked = kept ++ (front ++ back)) (member : p ∈ slp bucket) :
    p ∈ (front.filter taken).reverse ∨
      p ∈ update slp walked ((kept ++ front.filter fun q => !taken q) ++ back) bucket := by
  by_cases same : bucket = walked
  · subst same
    rw [here] at member
    simp only [List.mem_append] at member
    cases off : taken p with
    | true => simp [off]; tauto
    | false => simp [off]; tauto
  · exact .inr (by rwa [update_of_ne same])

/-- The queues on the way through `wakeup`: every process in `woken` has been moved to the run
queue, with good reason, and the others wait as before. -/
structure Underway (s : Queues) (slp : ℕ → List ProcId) (chan : Chan) (s' : Queues)
    (slp' : ℕ → List ProcId) (rq' woken : List ProcId) : Prop where
  wf : s'.WellFormed slp' rq'
  carried : Carried s s' woken
  queued : ∀ p ∈ woken, p ∈ rq'
  covered : ∀ bucket, ∀ p ∈ slp bucket, p ∈ woken ∨ p ∈ slp' bucket
  meant : ∀ p ∈ woken, s.wakes chan p = true ∨ p = 0 ∧ s.WakesSwapper slp chan

namespace Underway

variable {woken : List ProcId}

theorem start (chan : Chan) (wf : s.WellFormed slp rq) : Underway s slp chan s slp rq [] :=
  ⟨wf, Carried.refl s, by simp, fun _ _ here => .inr here, by simp⟩

/-- A process on a sleep queue has not been moved. -/
theorem unmoved {bucket : ℕ} (under : Underway s slp chan s' slp' rq' woken)
    (here : p ∈ slp' bucket) : p ∉ woken :=
  fun moved => under.wf.apart bucket p here (under.queued p moved)

/-- Once every process the channel wakes has been moved, all is done. -/
theorem allWoken (under : Underway s slp chan s' slp' rq' woken)
    (all : ∀ bucket, ∀ p ∈ slp bucket, s.wakes chan p = true → p ∈ woken)
    (swapper : s.WakesSwapper slp chan → 0 ∈ woken ∨ chan = s.runoutAddr) :
    s.AllWoken slp chan s' := by
  have ready : ∀ p ∈ woken, s'.Ready p := by
    intro p member
    refine ⟨by simp [under.carried.stat p, member], by simp [under.carried.wchan p, member], rq',
      under.wf.running, ?_⟩
    exact List.count_eq_one_of_mem under.wf.rq_nodup (under.queued p member)
  refine ⟨fun bucket p here wakes => ready p (all bucket p here wakes), fun wanted => ?_,
    fun bucket p here asleep other => ?_⟩
  · rcases swapper wanted with moved | same
    · exact ready 0 moved
    · exact ready 0 (all _ 0 wanted.1 (same ▸ wanted.2.1))
  · have out : p ∉ woken := by
      intro moved
      rcases under.meant p moved with wakes | swapping
      · simp [asleep] at wakes
      · exact other swapping
    have inside := (under.covered bucket p here).resolve_left out
    refine ⟨by simp [under.carried.wchan p, out], slp' bucket, ?_, inside⟩
    rw [under.wf.bucket_eq bucket p inside]
    exact under.wf.sleeping bucket

/-- More processes are moved. -/
theorem move {s'' : Queues} {slp'' : ℕ → List ProcId} {more : List ProcId}
    (under : Underway s slp chan s' slp' rq' woken) (wf : s''.WellFormed slp'' (more ++ rq'))
    (carried : Carried s' s'' more)
    (covered : ∀ bucket, ∀ p ∈ slp' bucket, p ∈ more ∨ p ∈ slp'' bucket)
    (meant : ∀ p ∈ more, s.wakes chan p = true ∨ p = 0 ∧ s.WakesSwapper slp chan) :
    Underway s slp chan s'' slp'' (more ++ rq') (more ++ woken) where
  wf := wf
  carried := under.carried.trans carried
  queued p moved := by
    rcases List.mem_append.mp moved with now | before
    · exact List.mem_append_left _ now
    · exact List.mem_append_right _ (under.queued p before)
  covered bucket p here := by
    rcases under.covered bucket p here with before | waits
    · exact .inl (List.mem_append_right _ before)
    · exact (covered bucket p waits).imp_left (List.mem_append_left _)
  meant p moved := (List.mem_append.mp moved).elim (meant p) (under.meant p)

/-- From a place where the pointers of the walk are on the chain and the swapper need not be
woken any more, the walk finishes the work. -/
theorem finish (kept rest : List ProcId)
    (under : Underway s slp chan s' slp' rq' woken) (wf : s.WellFormed slp rq)
    (here : slp' (HASH chan) = kept ++ rest) (passed : ∀ p ∈ kept, s.wakes chan p = false)
    (quiet : s'.runout = 0 ∨ ∀ q ∈ rest, s'.wakes chan q = true → (s'.proc q).loaded = true)
    (swapper : s.WakesSwapper slp chan → 0 ∈ woken ∨ chan = s.runoutAddr) :
    ∃ s'', Settles (fun fuel => walk fuel s' chan rest.head? kept.getLast?) s'' ∧
      s.AllWoken slp chan s'' := by
  obtain ⟨s'', settled, wf'', carried, -⟩ := under.wf.walk_quiet chan kept rest here quiet
  have same : ∀ p ∈ rest, s'.wakes chan p = s.wakes chan p := fun p mem =>
    under.carried.wakes (under.unmoved (show p ∈ slp' (HASH chan) by rw [here]; simp [mem]))
  have after := under.move wf'' carried
    (fun bucket p mem => by
      simpa using mem_filter_or kept rest [] (s'.wakes chan) (by simpa using here) mem)
    (fun p moved => by
      have found := List.mem_filter.mp (List.mem_reverse.mp moved)
      exact .inl ((same p found.1).symm.trans found.2))
  refine ⟨s'', settled, after.allWoken (fun bucket p mem woken => ?_) fun wanted =>
    (swapper wanted).imp_left (List.mem_append_right _)⟩
  obtain rfl := wf.bucket_of_wakes mem woken
  rcases under.covered _ p mem with moved | waits
  · exact List.mem_append_right _ moved
  · rw [here] at waits
    have late : p ∈ rest := (List.mem_append.mp waits).resolve_left fun early => by
      simp [passed p early] at woken
    exact List.mem_append_left _ (by simp [late, same p late, woken])

end Underway

/-! ## The walk up to the first process out of core -/

theorem strands_loaded {front : List ProcId} (kept rest : List ProcId)
    (loaded : ∀ q ∈ front, s.wakes chan q = true → (s.proc q).loaded = true) :
    s.strands chan kept.getLast? (front ++ rest) =
      s.strands chan (kept ++ front.filter fun q => !s.wakes chan q).getLast? rest := by
  induction front generalizing kept with
  | nil => simp
  | cons q front ih =>
      have later : ∀ r ∈ front, s.wakes chan r = true → (s.proc r).loaded = true :=
        fun r mem => loaded r (List.mem_cons_of_mem q mem)
      cases woken : s.wakes chan q with
      | true =>
          have core := loaded q List.mem_cons_self woken
          simpa [strands, woken, core] using ih kept later
      | false =>
          have shifted := ih (kept ++ [q]) later
          simpa [strands, woken] using shifted

/-- The first process on the queue that is to be woken and is out of core. -/
theorem first_swapped {queue : List ProcId}
    (some : ∃ q ∈ queue, s.wakes chan q = true ∧ (s.proc q).loaded = false) :
    ∃ front p back, queue = front ++ p :: back ∧ s.wakes chan p = true ∧
      (s.proc p).loaded = false ∧
      ∀ q ∈ front, s.wakes chan q = true → (s.proc q).loaded = true := by
  induction queue with
  | nil => simp at some
  | cons q queue ih =>
      by_cases swapped : s.wakes chan q = true ∧ (s.proc q).loaded = false
      · exact ⟨[], q, queue, rfl, swapped.1, swapped.2, by simp⟩
      · obtain ⟨r, mem, out⟩ := some
        have behind : r ∈ queue := by
          rcases List.mem_cons.mp mem with rfl | behind
          · exact absurd out swapped
          · exact behind
        obtain ⟨front, p, back, rfl, woken, swap, loaded⟩ := ih ⟨r, behind, out⟩
        refine ⟨q :: front, p, back, rfl, woken, swap, fun r mem wakes => ?_⟩
        rcases List.mem_cons.mp mem with rfl | mem
        · simpa [wakes] using swapped
        · exact loaded r mem wakes

/-- One turn of the loop when nobody waits for the swapper, whatever chain hangs on the run
queue after the process has been unlinked. -/
theorem walk_take_quiet {cells : List ProcId} (woken : s.wakes chan p = true)
    (chain : Chain (s.unlink (HASH chan) prev p).link s.runq cells) (fresh : p ∉ cells)
    (live : (s.proc p).p_stat ≠ .free) (quiet : s.runout = 0) :
    Chain (s.take (HASH chan) prev p).link (s.take (HASH chan) prev p).runq (p :: cells) ∧
      ∀ result,
        Settles (fun fuel => walk fuel (s.take (HASH chan) prev p) chan (s.link p) prev) result →
        Settles (fun fuel => walk fuel s chan (some p) prev) result := by
  constructor
  · rw [take_link, take_runq]
    exact chain.push fresh
  · refine fun result onward => walk_take woken ?_ onward
    have unlinked : Chain ((s.unlink (HASH chan) prev p).modify p fun entry =>
        { entry with p_wchan := 0 }).link s.runq cells := by
      rw [link_modify]
      simpa [modify] using chain.update fresh
    refine setrun_settles (by simpa [modify] using unlinked) fresh ?_ ?_ ?_ ?_
    · simp
    · simpa using live
    · simpa using (wakes_spec woken).2
    · simp [modify, quiet, Queues.take]

/-- A walk whose predecessor pointer has strayed onto the run queue goes on to the end of the
chain it holds, and only that chain remains of the run queue. -/
theorem walk_astray (chan : Chan) (held left pushed : List ProcId)
    (chain : Chain s.link s.runq (pushed ++ held ++ left)) (strayed : held ≠ [])
    (distinct : (pushed ++ held ++ left).Nodup) (live : ∀ q ∈ left, (s.proc q).p_stat ≠ .free)
    (quiet : s.runout = 0) :
    ∃ s', Settles (fun fuel => walk fuel s chan left.head? held.getLast?) s' ∧
      ∃ cells, Chain s'.link s'.runq cells ∧ ∀ q ∈ cells, q ∈ pushed ++ held ++ left := by
  induction left generalizing s held pushed with
  | nil => exact ⟨s, (Settles.pure s).succ fun _ => rfl, _, chain, fun _ mem => mem⟩
  | cons q left ih =>
      have after : s.link q = left.head? := chain.tail.start_eq
      cases woken : s.wakes chan q with
      | false =>
          obtain ⟨s', settled, cells, whole, within⟩ := ih (held ++ [q]) pushed
            (by simpa using chain) (by simp) (by simpa using distinct)
            (fun r mem => live r (List.mem_cons_of_mem q mem)) quiet
          refine ⟨s', walk_pass woken ?_, cells, whole, by simpa using within⟩
          simpa [after] using settled
      | true =>
          obtain ⟨early, prev, rfl⟩ : ∃ early prev, held = early ++ [prev] := by
            rcases List.eq_nil_or_concat held with none | ⟨early, prev, same⟩
            · exact absurd none strayed
            · exact ⟨early, prev, by simpa using same⟩
          rw [← List.append_assoc] at chain distinct
          have apart := List.nodup_cons.mp (List.nodup_middle.mp distinct)
          have shorter : Chain (s.unlink (HASH chan) (some prev) q).link s.runq
              ((pushed ++ early) ++ [prev] ++ left) := by
            rw [unlink_link]
            exact chain.unlink distinct
          have fresh : q ∉ (pushed ++ early) ++ [prev] ++ left := apart.1
          obtain ⟨links, onward⟩ :=
            walk_take_quiet woken shorter fresh (live q List.mem_cons_self) quiet
          have longer : Chain (s.take (HASH chan) (some prev) q).link
              (s.take (HASH chan) (some prev) q).runq
              ((q :: pushed) ++ (early ++ [prev]) ++ left) :=
            by simpa using links
          obtain ⟨s', settled, cells, whole, within⟩ := ih _ _ longer (by simp)
            (by simpa using List.nodup_cons.mpr apart)
            (fun r mem => by
              have other : r ≠ q := by rintro rfl; exact fresh (by simp [mem])
              simpa [other] using live r (List.mem_cons_of_mem q mem))
            (by simpa using quiet)
          refine ⟨s', ?_, cells, whole, fun r mem => ?_⟩
          · rw [List.getLast?_concat] at settled ⊢
            exact onward s' (by simpa [after] using settled)
          · have := within r mem
            simp only [List.mem_append, List.mem_cons] at this ⊢
            tauto

/-- The wakeup that `setrun` makes of the swapper. -/
theorem WellFormed.wake_swapper (wf : s.WellFormed slp rq) (quiet : s.runout = 0) :
    ∃ s', Settles (fun fuel => wakeup fuel s s.runoutAddr) s' ∧
      s'.WellFormed (update slp (HASH s.runoutAddr)
          ((slp (HASH s.runoutAddr)).filter fun q => !s.wakes s.runoutAddr q))
        (((slp (HASH s.runoutAddr)).filter (s.wakes s.runoutAddr)).reverse ++ rq) ∧
      Carried s s' ((slp (HASH s.runoutAddr)).filter (s.wakes s.runoutAddr)).reverse ∧
      s'.runout = 0 := by
  obtain ⟨s', settled, wf', carried, runout⟩ :=
    wf.walk_quiet s.runoutAddr [] _ rfl (.inl quiet)
  refine ⟨s', settled.succ fun fuel => ?_, by simpa using wf', carried, runout.trans quiet⟩
  simp [wakeup, (wf.sleeping (HASH s.runoutAddr)).start_eq]

/-- The walk of `wakeup(chan)` after `setrun` has made `p`, the first process out of core,
runnable and has woken the swapper: `kept` has been passed and `back` lay behind `p`. -/
structure SwapperWoken (s : Queues) (slp : ℕ → List ProcId) (chan : Chan) (p : ProcId)
    (kept back : List ProcId) (s' : Queues) (slp' : ℕ → List ProcId)
    (rq' woken : List ProcId) : Prop extends Underway s slp chan s' slp' rq' woken where
  quiet : s'.runout = 0
  moved : 0 ∈ slp (HASH s.runoutAddr) → s.wakes s.runoutAddr 0 = true → 0 ∈ woken
  queue : slp' (HASH chan) = (kept ++ back).filter fun q => !s.wakes s.runoutAddr q
  relinked : 0 ∈ kept ++ back → s.wakes s.runoutAddr 0 = true → ∃ more, rq' = 0 :: p :: more

/-- The walk up to the first process out of core and through the wakeup of the swapper. -/
theorem WellFormed.walk_swapped {front back : List ProcId} (wf : s.WellFormed slp rq)
    (here : slp (HASH chan) = front ++ p :: back) (woken : s.wakes chan p = true)
    (out : (s.proc p).loaded = false)
    (loaded : ∀ q ∈ front, s.wakes chan q = true → (s.proc q).loaded = true)
    (waits : s.runout ≠ 0) :
    ∃ s' slp' rq' moved,
      (∀ result,
        Settles (fun fuel => walk fuel s' chan back.head?
          (front.filter fun q => !s.wakes chan q).getLast?) result →
        Settles (fun fuel => wakeup fuel s chan) result) ∧
      SwapperWoken s slp chan p (front.filter fun q => !s.wakes chan q) back s' slp' rq'
        moved := by
  have member : p ∈ slp (HASH chan) := by rw [here]; simp
  obtain ⟨s₁, settled₁, wf₁, carried₁, runout₁⟩ :=
    wf.walk_through chan [] front (p :: back) here (.inr loaded)
  simp only [List.nil_append] at wf₁ settled₁
  generalize asleep : (front.filter fun q => !s.wakes chan q) = kept at *
  have under₁ := (Underway.start chan wf).move wf₁ carried₁
    (fun bucket q mem => by
      rw [← asleep]
      exact mem_filter_or [] front (p :: back) (s.wakes chan) (by simpa using here) mem)
    (fun q moved => .inl (List.mem_filter.mp (List.mem_reverse.mp moved)).2)
  have here₁ : update slp (HASH chan) (kept ++ p :: back) (HASH chan) = kept ++ p :: back :=
    update_self _ _ _
  -- the process itself is taken and the flag cleared
  let t : Queues := { s₁.take (HASH chan) kept.getLast? p with runout := 0 }
  have wf_t : t.WellFormed (update slp (HASH chan) (kept ++ back))
      ([p] ++ ((front.filter (s.wakes chan)).reverse ++ rq)) := by
    have taken := (wf₁.take here₁).of_runout 0
    rwa [update_idem] at taken
  have carried_t : Carried s₁ t [p] :=
    have taken := Carried.take s₁ (HASH chan) kept.getLast? p
    ⟨taken.wchan, taken.stat, taken.flag, taken.addr⟩
  have under_t := under₁.move wf_t carried_t
    (fun bucket q mem => by
      by_cases same : bucket = HASH chan
      · subst same
        simp only [update_self, List.mem_append, List.mem_cons] at mem ⊢
        tauto
      · rw [update_of_ne same] at mem ⊢
        exact .inr mem)
    (fun q moved => by
      obtain rfl := List.mem_singleton.mp moved
      exact .inl woken)
  generalize queues : update slp (HASH chan) (kept ++ back) = slp₂ at wf_t under_t
  have here₂ : slp₂ (HASH chan) = kept ++ back := by rw [← queues, update_self]
  -- nobody that still sleeps has changed, so the swapper is woken if it sleeps on `&runout`
  obtain ⟨s', settled', wf', carried', runout'⟩ := wf_t.wake_swapper rfl
  rw [show t.runoutAddr = s.runoutAddr from under_t.carried.addr] at wf' settled' carried'
  have same : ∀ bucket, ∀ q ∈ slp₂ bucket,
      t.wakes s.runoutAddr q = s.wakes s.runoutAddr q :=
    fun bucket q mem => under_t.carried.wakes (under_t.unmoved mem)
  have bucket_of : ∀ bucket, ∀ q ∈ slp₂ bucket, s.wakes s.runoutAddr q = true →
      bucket = HASH s.runoutAddr := fun bucket q mem wakes =>
    wf_t.bucket_of_wakes mem ((same bucket q mem).trans wakes)
  have under' := under_t.move wf' carried'
    (fun bucket q mem => by
      simpa using mem_filter_or [] _ [] (t.wakes s.runoutAddr) (by simp) mem)
    (fun q moved => by
      obtain ⟨mem, wakes⟩ := List.mem_filter.mp (List.mem_reverse.mp moved)
      have inside : q ∈ slp (HASH s.runoutAddr) := by
        by_cases walked : HASH s.runoutAddr = HASH chan
        · rw [walked, here₂] at mem
          rw [walked, here, ← asleep] at *
          simp only [List.mem_append, List.mem_filter, List.mem_cons] at mem ⊢
          tauto
        · rwa [← queues, update_of_ne walked] at mem
      rw [same _ q mem] at wakes
      obtain rfl := wf.swapper _ q inside (wakes_spec wakes).1
      exact .inr ⟨rfl, inside, wakes, HASH chan, p, member, woken, out⟩)
  refine ⟨s', _, _, _, fun result onward => ?_, under', runout', fun sleeps wakes => ?_, ?_,
    fun sleeps wakes => ?_⟩
  · have p_here : p ∈ update slp (HASH chan) (kept ++ p :: back) (HASH chan) := by
      rw [here₁]
      simp
    have woken₁ : s₁.wakes chan p = true :=
      (under₁.carried.wakes (under₁.unmoved p_here)).trans woken
    have after : s₁.link p = back.head? := (here₁ ▸ wf₁.sleeping (HASH chan)).tail.start_eq
    have whole := settled₁ result <| walk_take woken₁
      (wf₁.setrun_unlinked here₁ (wakes_spec woken₁).2 <| by
        rw [if_pos ⟨by rwa [runout₁], by rw [carried₁.loaded, out]⟩, carried₁.addr]
        exact settled') (by rwa [after])
    refine whole.succ fun fuel => ?_
    simp [wakeup, (wf.sleeping (HASH chan)).start_eq, here]
  · rcases under_t.covered _ 0 sleeps with before | mem
    · exact List.mem_append_right _ before
    · refine List.mem_append_left _ (List.mem_reverse.mpr (List.mem_filter.mpr ⟨mem, ?_⟩))
      rw [same _ 0 mem, wakes]
  · by_cases walked : HASH chan = HASH s.runoutAddr
    · rw [← walked, update_self, here₂]
      exact List.filter_congr fun q mem => by rw [same _ q (here₂ ▸ mem)]
    · rw [update_of_ne walked, here₂]
      refine (List.filter_eq_self.mpr fun q mem => ?_).symm
      by_contra wakes
      exact walked (bucket_of _ q (here₂ ▸ mem) (by simpa using wakes))
  · have mem : 0 ∈ slp₂ (HASH s.runoutAddr) := by
      have inside : 0 ∈ slp₂ (HASH chan) := here₂ ▸ sleeps
      rwa [bucket_of _ 0 inside wakes] at inside
    have one := wf_t.filter_runout (HASH s.runoutAddr)
    rw [show t.runoutAddr = s.runoutAddr from under_t.carried.addr,
      if_pos ⟨mem, by rw [same _ 0 mem, wakes]⟩] at one
    rw [one]
    exact ⟨_, rfl⟩

/-! ## The pointers of the outer walk -/

theorem head?_filter_of_kept {queue : List ProcId} {stays : ProcId → Bool}
    (kept : ∀ q ∈ queue.head?, stays q = true) : (queue.filter stays).head? = queue.head? := by
  cases queue with
  | nil => rfl
  | cons q queue => simp [kept q rfl]

theorem getLast?_filter_of_kept {queue : List ProcId} {stays : ProcId → Bool}
    (kept : ∀ q ∈ queue.getLast?, stays q = true) :
    (queue.filter stays).getLast? = queue.getLast? := by
  rcases List.eq_nil_or_concat queue with rfl | ⟨front, last, rfl⟩
  · rfl
  · simp [kept last (by simp)]

namespace SwapperWoken

variable {woken back : List ProcId}

/-- Both pointers are still on the chain. -/
theorem finish_kept (past : SwapperWoken s slp chan p kept back s' slp' rq' woken)
    (wf : s.WellFormed slp rq) (passed : ∀ q ∈ kept, s.wakes chan q = false)
    (behind : ∀ q ∈ kept.getLast?, s.wakes s.runoutAddr q = false)
    (ahead : ∀ q ∈ back.head?, s.wakes s.runoutAddr q = false) :
    ∃ s'', Settles (fun fuel => walk fuel s' chan back.head? kept.getLast?) s'' ∧
      s.AllWoken slp chan s'' := by
  have queue := past.queue
  rw [List.filter_append] at queue
  have finished := past.finish _ _ wf queue
    (fun q mem => passed q (List.mem_filter.mp mem).1) (.inl past.quiet)
    fun wanted => .inl (past.moved wanted.1 wanted.2.1)
  rwa [head?_filter_of_kept fun q first => by rw [ahead q first]; rfl,
    getLast?_filter_of_kept fun q last => by rw [behind q last]; rfl] at finished

/-- The walk goes on at the swapper, which is on the run queue now: it ends there and leaves the
sleep queue behind. -/
theorem onto_swapper (past : SwapperWoken s slp chan p kept (0 :: rest) s' slp' rq' woken)
    (wf : s.WellFormed slp rq) (passed : ∀ q ∈ kept, s.wakes chan q = false)
    (within : ∀ q ∈ rest, q ∈ slp (HASH chan)) (apart : 0 ∉ rest) (real : chan ≠ 0)
    (swapper : s.wakes s.runoutAddr 0 = true) :
    ∃ s'', Settles (fun fuel => walk fuel s' chan (some 0) kept.getLast?) s'' ∧
      (s.AllWoken slp chan s'' ↔ rest.any (s.wakes chan) = false) := by
  obtain ⟨more, rfl⟩ := past.relinked (by simp) swapper
  have start := past.wf.running.start_eq
  have settled : Settles (fun fuel => walk fuel s' chan (some 0) kept.getLast?) s' :=
    walk_idle (start ▸ past.wf.running) fun q mem => by
      simp [wakes, past.wf.idle q mem, Ne.symm real]
  have stays : ∀ q ∈ rest, s.wakes s.runoutAddr q = false := by
    intro q mem
    by_contra wakes
    obtain rfl := wf.swapper _ q (within q mem) (wakes_spec (by simpa using wakes)).1
    exact apart mem
  refine ⟨s', settled, ?_, ?_⟩
  · intro done
    refine List.any_eq_false.mpr fun q mem wakes => ?_
    have waits : q ∈ slp' (HASH chan) := by
      rw [past.queue]
      simp [mem, stays q mem]
    exact past.wf.waiting _ q waits (done.woken _ q (within q mem) wakes).2.1
  · intro none
    refine past.allWoken (fun bucket q mem wakes => ?_)
      fun wanted => .inl (past.moved wanted.1 wanted.2.1)
    obtain rfl := wf.bucket_of_wakes mem wakes
    refine (past.covered _ q mem).resolve_right fun waits => ?_
    rw [past.queue] at waits
    obtain ⟨place, left⟩ := List.mem_filter.mp waits
    rcases List.mem_append.mp place with early | late
    · simp [passed q early] at wakes
    · rcases List.mem_cons.mp late with rfl | late
      · simp [swapper] at left
      · exact List.any_eq_false.mp none q late wakes

/-- The process to unlink next lies behind the swapper: the run queue is redirected onto the sleep
queue, and `p` is lost from it. -/
theorem behind_swapper {early : List ProcId} {q : ProcId}
    (past : SwapperWoken s slp chan p (early ++ [0]) (q :: rest) s' slp' rq' woken)
    (member : p ∈ slp (HASH chan)) (wakes_p : s.wakes chan p = true)
    (distinct : (0 :: p :: q :: rest).Nodup)
    (queue : slp' (HASH chan) = early ++ q :: rest) (wakes_q : s.wakes chan q = true)
    (swapper : s.wakes s.runoutAddr 0 = true) :
    ∃ s'', Settles (fun fuel => walk fuel s' chan (some q) (some 0)) s'' ∧
      ¬s.AllWoken slp chan s'' := by
  obtain ⟨more, rfl⟩ := past.relinked (by simp) swapper
  have sleeping := past.wf.sleeping (HASH chan)
  rw [queue] at sleeping
  have tail := sleeping.tail
  have apart : (q :: 0 :: rest).Nodup ∧ p ∉ q :: 0 :: rest := by
    simp only [List.nodup_cons, List.mem_cons] at distinct ⊢
    tauto
  have cut : Chain (update s'.link 0 (s'.link q)) (some 0) (0 :: rest) := by
    refine ⟨rfl, ?_⟩
    rw [update_self]
    exact tail.update fun mem => (List.nodup_cons.mp distinct).1 (by simp [mem])
  have broken : Chain (s'.unlink (HASH chan) (some 0) q).link s'.runq (0 :: rest) := by
    rw [unlink_link, past.wf.running.start_eq]
    exact cut
  have waits : q ∈ slp' (HASH chan) := by rw [queue]; simp
  obtain ⟨links, onward⟩ := walk_take_quiet
    ((past.carried.wakes (past.unmoved waits)).trans wakes_q) broken
    (List.nodup_cons.mp apart.1).1 (past.wf.alive _ q waits) past.quiet
  obtain ⟨t, settled, cells, whole, within⟩ := walk_astray chan [0] rest [q] links (by simp) apart.1
    (fun r mem => by
      have behind : r ∈ slp' (HASH chan) := by rw [queue]; simp [mem]
      have other : r ≠ q := by
        rintro rfl
        exact (List.nodup_cons.mp apart.1).1 (List.mem_cons_of_mem 0 mem)
      simpa [other] using past.wf.alive _ r behind)
    (by simpa using past.quiet)
  refine ⟨t, onward t (by simpa [tail.start_eq] using settled), fun done => ?_⟩
  obtain ⟨-, -, running, chain, once⟩ := done.woken _ p member wakes_p
  have found : p ∈ cells := by
    rw [whole.unique chain]
    exact List.count_pos_iff.mp (by omega)
  exact apart.2 (by simpa using within p found)

/-- The swapper was passed last: what counts is the process that comes next. -/
theorem past_swapper {early : List ProcId}
    (past : SwapperWoken s slp chan p (early ++ [0]) back s' slp' rq' woken)
    (wf : s.WellFormed slp rq) (distinct : (early ++ [0] ++ p :: back).Nodup)
    (within : ∀ q ∈ early ++ [0] ++ p :: back, q ∈ slp (HASH chan))
    (passed : ∀ q ∈ early ++ [0], s.wakes chan q = false) (wakes_p : s.wakes chan p = true)
    (swapper : s.wakes s.runoutAddr 0 = true) :
    ∃ s'', Settles (fun fuel => walk fuel s' chan back.head? (some 0)) s'' ∧
      (s.AllWoken slp chan s'' ↔ back.head?.any (s.wakes chan) = false) := by
  have queue : slp' (HASH chan) = early ++ back := by
    have stays : ∀ q ∈ early ++ back, (!s.wakes s.runoutAddr q) = true := by
      intro q mem
      by_contra wakes
      have inside : q ∈ slp (HASH chan) := within q (by
        simp only [List.mem_append, List.mem_cons] at mem ⊢
        tauto)
      obtain rfl := wf.swapper _ q inside (wakes_spec (by simpa using wakes)).1
      simp only [List.append_assoc, List.singleton_append] at distinct
      refine (List.nodup_cons.mp (List.nodup_middle.mp distinct)).1 ?_
      simp only [List.mem_append, List.mem_cons] at mem ⊢
      tauto
    have split := past.queue
    rw [List.append_assoc, List.filter_append, List.singleton_append,
      List.filter_cons_of_neg (by simp [swapper]), ← List.filter_append,
      List.filter_eq_self.mpr stays] at split
    exact split
  have moved : s.WakesSwapper slp chan → 0 ∈ woken ∨ chan = s.runoutAddr :=
    fun wanted => .inl (past.moved wanted.1 wanted.2.1)
  match back with
  | [] =>
      obtain ⟨s'', settled, done⟩ := past.finish early [] wf queue
        (fun q mem => passed q (List.mem_append_left _ mem)) (.inl past.quiet) moved
      refine ⟨s'', settled.congr fun fuel => ?_, fun _ => rfl, fun _ => done⟩
      cases fuel <;> rfl
  | q :: rest =>
      cases wakes_q : s.wakes chan q with
      | true =>
          have tail : (0 :: p :: q :: rest).Nodup := by
            rw [List.append_assoc] at distinct
            exact (List.nodup_append.mp distinct).2.1
          obtain ⟨s'', settled, lost⟩ :=
            past.behind_swapper (within p (by simp)) wakes_p tail queue wakes_q swapper
          exact ⟨s'', settled, by simp [wakes_q, lost]⟩
      | false =>
          have longer : slp' (HASH chan) = (early ++ [q]) ++ rest := by simpa using queue
          have waits : q ∈ slp' (HASH chan) := by rw [queue]; simp
          obtain ⟨s'', settled, done⟩ := past.finish _ rest wf longer
            (fun r mem => by
              rcases List.mem_append.mp mem with early | last
              · exact passed r (List.mem_append_left _ early)
              · rwa [List.mem_singleton.mp last])
            (.inl past.quiet) moved
          refine ⟨s'', walk_pass ?_ ?_, by simp [wakes_q, done]⟩
          · rw [past.carried.wakes (past.unmoved waits), wakes_q]
          · have chain := past.wf.sleeping (HASH chan)
            rw [queue] at chain
            simpa [chain.tail.start_eq] using settled

/-- How the walk ends is read off the two pointers it keeps. -/
theorem walk_iff (past : SwapperWoken s slp chan p kept back s' slp' rq' woken)
    (wf : s.WellFormed slp rq) (distinct : (kept ++ p :: back).Nodup)
    (within : ∀ q ∈ kept ++ p :: back, q ∈ slp (HASH chan))
    (passed : ∀ q ∈ kept, s.wakes chan q = false) (wakes_p : s.wakes chan p = true)
    (out : (s.proc p).loaded = false) :
    ∃ s'', Settles (fun fuel => walk fuel s' chan back.head? kept.getLast?) s'' ∧
      (s.AllWoken slp chan s'' ↔ s.strands chan kept.getLast? (p :: back) = false) := by
  have verdict : s.strands chan kept.getLast? (p :: back) =
      (s.wakes s.runoutAddr 0 && (back.head? == some 0 && back.tail.any (s.wakes chan) ||
        kept.getLast? == some 0 && back.head?.any (s.wakes chan))) := by
    simp [strands, wakes_p, out]
  have zero : ∀ q ∈ kept ++ p :: back, s.wakes s.runoutAddr q = true →
      q = 0 ∧ s.wakes s.runoutAddr 0 = true := by
    intro q mem wakes
    obtain rfl := wf.swapper _ q (within q mem) (wakes_spec wakes).1
    exact ⟨rfl, wakes⟩
  rw [verdict]
  by_cases ahead : back.head? = some 0 ∧ s.wakes s.runoutAddr 0 = true
  · -- the saved pointer to the next process is the swapper
    obtain ⟨first, swapper⟩ := ahead
    obtain ⟨rest, rfl⟩ : ∃ rest, back = 0 :: rest := by
      cases back with
      | nil => simp at first
      | cons q rest => exact ⟨rest, by simpa using first⟩
    have parts := List.nodup_append.mp distinct
    have last : kept.getLast? ≠ some 0 := fun last =>
      parts.2.2 0 (List.mem_of_getLast? last) 0 (by simp) rfl
    have apart : 0 ∉ rest :=
      (List.nodup_cons.mp (List.nodup_cons.mp parts.2.1).2).1
    simpa [swapper, last] using past.onto_swapper wf passed
      (fun q mem => within q (by simp [mem])) apart
      ((wakes_spec wakes_p).1 ▸ wf.waiting _ p (within p (by simp))) swapper
  · by_cases behind : kept.getLast? = some 0 ∧ s.wakes s.runoutAddr 0 = true
    · -- the swapper is the process to unlink the next one behind
      obtain ⟨last, swapper⟩ := behind
      obtain ⟨early, rfl⟩ := List.getLast?_eq_some_iff.mp last
      have first : back.head? ≠ some 0 := fun first => ahead ⟨first, swapper⟩
      simpa [swapper, first] using past.past_swapper wf distinct within passed wakes_p swapper
    · have done := past.finish_kept wf passed
        (fun q last => by
          by_contra wakes
          obtain ⟨rfl, swapper⟩ := zero q (by simp [List.mem_of_getLast? last])
            (by simpa using wakes)
          exact behind ⟨last, swapper⟩)
        (fun q first => by
          by_contra wakes
          obtain ⟨rfl, swapper⟩ := zero q (by simp [List.mem_of_head? first])
            (by simpa using wakes)
          exact ahead ⟨first, swapper⟩)
      obtain ⟨s'', settled, all⟩ := done
      refine ⟨s'', settled, fun _ => ?_, fun _ => all⟩
      cases swapper : s.wakes s.runoutAddr 0 with
      | false => simp
      | true =>
          have first : back.head? ≠ some 0 := fun first => ahead ⟨first, swapper⟩
          have last : kept.getLast? ≠ some 0 := fun last => behind ⟨last, swapper⟩
          simp [first, last]

end SwapperWoken

/-! ## The two ways to lose a wakeup -/

/-- Without a process out of core to wake, or with the flag clear, only the flag matters. -/
theorem WellFormed.wakeup_quiet_iff (wf : s.WellFormed slp rq)
    (quiet : s.runout = 0 ∨
      ∀ q ∈ slp (HASH chan), s.wakes chan q = true → (s.proc q).loaded = true) :
    ∃ s', Settles (fun fuel => wakeup fuel s chan) s' ∧ (s.AllWoken slp chan s' ↔
      (s.runout = 0 → chan ≠ s.runoutAddr → ¬s.WakesSwapper slp chan)) := by
  have enter : ∀ result,
      Settles (fun fuel => walk fuel s chan (slp (HASH chan)).head? none) result →
      Settles (fun fuel => wakeup fuel s chan) result := fun result onward =>
    onward.succ fun fuel => by simp [wakeup, (wf.sleeping (HASH chan)).start_eq]
  by_cases asked : s.WakesSwapper slp chan → chan = s.runoutAddr
  · obtain ⟨s', settled, done⟩ := (Underway.start chan wf).finish [] (slp (HASH chan)) wf
      rfl (by simp) quiet fun wanted => .inr (asked wanted)
    exact ⟨s', enter s' settled, fun _ _ other wanted => other (asked wanted), fun _ => done⟩
  · obtain ⟨wanted, other⟩ := Classical.not_imp.mp asked
    have clear : s.runout = 0 := quiet.resolve_right fun loaded => by
      obtain ⟨bucket, p, mem, woken, out⟩ := wanted.2.2
      obtain rfl := wf.bucket_of_wakes mem woken
      simp [loaded p mem woken] at out
    obtain ⟨s', settled, -, carried, -⟩ :=
      wf.walk_quiet chan [] (slp (HASH chan)) rfl quiet
    refine ⟨s', enter s' settled, fun done => absurd (done.swapper wanted).2.1 ?_,
      fun free => absurd wanted (free clear other)⟩
    have asleep : s.wakes chan 0 = false := by
      by_contra wakes
      exact other ((wakes_spec (by simpa using wakes)).1.symm.trans (wakes_spec wanted.2.1).1)
    rw [carried.wchan 0, if_neg (by simp [asleep])]
    exact wf.waiting _ 0 wanted.1

/-- `wakeup(chan)` returns, and it has woken every process it should, the swapper included, and
left the others where they sleep exactly when neither the pointers of its walk nor the flag
mislead it. -/
theorem wakeup_allWoken_iff (wf : s.WellFormed slp rq) :
    ∃ s', Settles (fun fuel => wakeup fuel s chan) s' ∧
      (s.AllWoken slp chan s' ↔ s.Spared slp chan) := by
  by_cases quiet : s.runout = 0 ∨
      ∀ q ∈ slp (HASH chan), s.wakes chan q = true → (s.proc q).loaded = true
  · obtain ⟨s', settled, same⟩ := wf.wakeup_quiet_iff quiet
    refine ⟨s', settled, same.trans ⟨fun free => ⟨fun waits => ?_, free⟩, Spared.flag⟩⟩
    simpa [strands] using strands_loaded [] [] (quiet.resolve_left waits)
  · obtain ⟨waits, swapped⟩ := not_or.mp quiet
    obtain ⟨front, p, back, here, woken, out, loaded⟩ :
        ∃ front p back, slp (HASH chan) = front ++ p :: back ∧ s.wakes chan p = true ∧
          (s.proc p).loaded = false ∧
          ∀ q ∈ front, s.wakes chan q = true → (s.proc q).loaded = true :=
      first_swapped (by simpa using swapped)
    obtain ⟨s', slp', rq', moved, onward, past⟩ :=
      wf.walk_swapped here woken out loaded waits
    have sublist : ((front.filter fun q => !s.wakes chan q) ++ p :: back).Sublist
        (slp (HASH chan)) := here ▸ List.filter_sublist.append_right _
    obtain ⟨s'', settled, same⟩ := past.walk_iff wf (sublist.nodup (wf.slp_nodup _))
      (fun q mem => sublist.subset mem)
      (fun q mem => by simpa using (List.mem_filter.mp mem).2) woken out
    refine ⟨s'', onward s'' settled, same.trans ?_⟩
    have split := strands_loaded [] (p :: back) loaded
    rw [← here] at split
    simp only [List.getLast?_nil, List.nil_append] at split
    rw [← split]
    exact ⟨fun straight => ⟨fun _ => straight, fun clear => absurd clear waits⟩,
      fun spared => spared.pointers waits⟩

/-! ## A bucket shared with the swapper -/

/-- Processes 1 and 2 sleep on channel 2080, process 1 has been swapped out, and then the swapper
went to sleep on `&runout` at address 32, which hashes to the same bucket. -/
def collision : Queues where
  proc p :=
    match p with
    | 0 => ⟨.SSLEEP, SLOAD, 0, 32, some 1⟩
    | 1 => ⟨.SSLEEP, 0, 10, 2080, some 2⟩
    | 2 => ⟨.SSLEEP, SLOAD, 10, 2080, none⟩
    | _ => ⟨.free, 0, 0, 0, none⟩
  slpque bucket := if bucket = 1 then some 0 else none
  runq := none
  runout := 1
  runrun := 0
  curpri := 50
  runoutAddr := 32

/-- The sleepers of `collision`. -/
def sleepers (bucket : ℕ) : List ProcId := if bucket = 1 then [0, 1, 2] else []

theorem mem_sleepers {bucket : ℕ} :
    p ∈ sleepers bucket ↔ bucket = 1 ∧ (p = 0 ∨ p = 1 ∨ p = 2) := by
  by_cases one : bucket = 1 <;> simp [sleepers, one]

theorem collision_wellFormed : collision.WellFormed sleepers [] where
  sleeping bucket := by
    by_cases one : bucket = 1
    · simpa [sleepers, collision, one] using ⟨rfl, rfl, rfl⟩
    · simp [sleepers, collision, one]
  running := rfl
  slp_nodup bucket := by
    by_cases one : bucket = 1 <;> simp [sleepers, one]
  rq_nodup := List.nodup_nil
  apart := by simp
  bucket_eq bucket p here := by
    obtain ⟨rfl, rfl | rfl | rfl⟩ := mem_sleepers.mp here <;> rfl
  waiting bucket p here := by
    obtain ⟨rfl, rfl | rfl | rfl⟩ := mem_sleepers.mp here <;> decide
  alive bucket p here := by
    obtain ⟨rfl, rfl | rfl | rfl⟩ := mem_sleepers.mp here <;> decide
  idle := by simp
  swapper bucket p here := by
    obtain ⟨rfl, rfl | rfl | rfl⟩ := mem_sleepers.mp here <;> decide

theorem collision_wakeup_iff :
    ∃ s', Settles (fun fuel => wakeup fuel collision 2080) s' ∧
      (collision.AllWoken sleepers 2080 s' ↔ collision.Spared sleepers 2080) :=
  wakeup_allWoken_iff collision_wellFormed

/-- After `wakeup(2080)` the run queue of `collision` is 2, 0: process 1 is on no queue. -/
theorem not_forall_wakeup_allWoken :
    ¬∀ (s s' : Queues) (slp : ℕ → List ProcId) (rq : List ProcId) (chan : Chan) (fuel : ℕ),
      s.WellFormed slp rq → wakeup fuel s chan = .ok s' → s.AllWoken slp chan s' := by
  intro all
  have done := all collision _ sleepers [] 2080 20 collision_wellFormed rfl
  obtain ⟨-, -, running, chain, once⟩ := done.woken 1 1 (by decide) (by decide)
  have strayed : running = [2, 0] := chain.unique ⟨rfl, rfl, rfl⟩
  simp [strayed] at once

end Queues

end UnixV7
