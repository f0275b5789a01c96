import Mathlib.Data.List.Count
import UnixV7.Library.Fuel
import UnixV7.Kernel.Sleep

/-!
# What `wakeup` wakes

`wakeup` keeps two pointers into the queue it walks, and `setrun` may call it again for the
swapper. Both walks are followed here at the level of the lists the queues stand for, and the
states in which the inner walk takes away a process the outer one points at are found exactly.
-/

namespace UnixV7

open Fuel Function

namespace Queues

/-- The queues are chains, each process is on one queue at most, and on the queue of its own
channel when it sleeps. Only process 0 sleeps on `&runout`. -/
structure WellFormed (s : Queues) (slp : ℕ → List ProcId) (rq : List ProcId) : Prop where
  sleeping : ∀ bucket, Chain s.link (s.slpque bucket) (slp bucket)
  running : Chain s.link s.runq rq
  slp_nodup : ∀ bucket, (slp bucket).Nodup
  rq_nodup : rq.Nodup
  apart : ∀ bucket, ∀ p ∈ slp bucket, p ∉ rq
  bucket_eq : ∀ bucket, ∀ p ∈ slp bucket, HASH (s.proc p).p_wchan = bucket
  waiting : ∀ bucket, ∀ p ∈ slp bucket, (s.proc p).p_wchan ≠ 0
  alive : ∀ bucket, ∀ p ∈ slp bucket, (s.proc p).p_stat ≠ .free
  idle : ∀ p ∈ rq, (s.proc p).p_wchan = 0
  swapper : ∀ bucket, ∀ p ∈ slp bucket, (s.proc p).p_wchan = s.runoutAddr → p = 0

/-! ## One process taken off a sleep queue -/

@[simp] theorem modify_proc (s : Queues) (p : ProcId) (f : Proc → Proc) :
    (s.modify p f).proc = update s.proc p (f (s.proc p)) := rfl

theorem link_modify (s : Queues) (p : ProcId) (f : Proc → Proc) :
    (s.modify p f).link = update s.link p (f (s.proc p)).p_link := by
  funext q
  by_cases same : q = p
  · subst same
    simp [link]
  · simp [link, same]

@[simp] theorem link_setLink (s : Queues) (p : ProcId) (target : Option ProcId) :
    (s.setLink p target).link = update s.link p target := by
  simp [setLink, link_modify]

/-- The process at the head of the run queue after `setrun` found nobody to wake. -/
def enqueue (s : Queues) (p : ProcId) : Queues :=
  ({ (s.modify p fun entry => { entry with p_stat := .SRUN }).setLink p s.runq with
    runq := some p } : Queues).preempt p

/-- One process moved by the loop of `wakeup` from its sleep queue to the run queue. -/
def take (s : Queues) (bucket : ℕ) (prev : Option ProcId) (p : ProcId) : Queues :=
  ((s.unlink bucket prev p).modify p fun entry => { entry with p_wchan := 0 }).enqueue p

@[simp] theorem enqueue_link (s : Queues) (p : ProcId) :
    (s.enqueue p).link = update s.link p s.runq := by
  have base : ((s.modify p fun entry => { entry with p_stat := .SRUN }).setLink p s.runq).link =
      update s.link p s.runq := by
    rw [link_setLink, link_modify]
    exact update_idem _ _ _
  rw [← base]
  unfold enqueue preempt
  split <;> rfl

theorem enqueue_proc (s : Queues) (p : ProcId) :
    (s.enqueue p).proc =
      update s.proc p { s.proc p with p_stat := .SRUN, p_link := s.runq } := by
  have base : ((s.modify p fun entry => { entry with p_stat := .SRUN }).setLink p s.runq).proc =
      update s.proc p { s.proc p with p_stat := .SRUN, p_link := s.runq } := by
    simp [setLink]
  rw [← base]
  unfold enqueue preempt
  split <;> rfl

@[simp] theorem enqueue_runq (s : Queues) (p : ProcId) : (s.enqueue p).runq = some p := by
  unfold enqueue preempt
  split <;> rfl

@[simp] theorem enqueue_slpque (s : Queues) (p : ProcId) :
    (s.enqueue p).slpque = s.slpque := by
  unfold enqueue preempt
  split <;> rfl

@[simp] theorem enqueue_runout (s : Queues) (p : ProcId) :
    (s.enqueue p).runout = s.runout := by
  unfold enqueue preempt
  split <;> rfl

@[simp] theorem enqueue_runoutAddr (s : Queues) (p : ProcId) :
    (s.enqueue p).runoutAddr = s.runoutAddr := by
  unfold enqueue preempt
  split <;> rfl

@[simp] theorem unlink_runq (s : Queues) (bucket : ℕ) (prev : Option ProcId) (p : ProcId) :
    (s.unlink bucket prev p).runq = s.runq := by
  cases prev <;> rfl

@[simp] theorem unlink_runout (s : Queues) (bucket : ℕ) (prev : Option ProcId) (p : ProcId) :
    (s.unlink bucket prev p).runout = s.runout := by
  cases prev <;> rfl

@[simp] theorem unlink_runoutAddr (s : Queues) (bucket : ℕ) (prev : Option ProcId)
    (p : ProcId) : (s.unlink bucket prev p).runoutAddr = s.runoutAddr := by
  cases prev <;> rfl

@[simp] theorem unlink_wchan (s : Queues) (bucket : ℕ) (prev : Option ProcId) (p q : ProcId) :
    ((s.unlink bucket prev p).proc q).p_wchan = (s.proc q).p_wchan := by
  cases prev with
  | none => rfl
  | some prev =>
      by_cases same : q = prev
      · subst same
        simp [unlink, setLink]
      · simp [unlink, setLink, same]

@[simp] theorem unlink_stat (s : Queues) (bucket : ℕ) (prev : Option ProcId) (p q : ProcId) :
    ((s.unlink bucket prev p).proc q).p_stat = (s.proc q).p_stat := by
  cases prev with
  | none => rfl
  | some prev =>
      by_cases same : q = prev
      · subst same
        simp [unlink, setLink]
      · simp [unlink, setLink, same]

@[simp] theorem unlink_flag (s : Queues) (bucket : ℕ) (prev : Option ProcId) (p q : ProcId) :
    ((s.unlink bucket prev p).proc q).p_flag = (s.proc q).p_flag := by
  cases prev with
  | none => rfl
  | some prev =>
      by_cases same : q = prev
      · subst same
        simp [unlink, setLink]
      · simp [unlink, setLink, same]

/-- The links after the removal of `p` behind `prev`. -/
theorem unlink_link (s : Queues) (bucket : ℕ) (prev : Option ProcId) (p : ProcId) :
    (s.unlink bucket prev p).link =
      match prev with
      | none => s.link
      | some prev => update s.link prev (s.link p) := by
  cases prev with
  | none => rfl
  | some prev => exact link_setLink s prev (s.link p)

theorem take_link (s : Queues) (bucket : ℕ) (prev : Option ProcId) (p : ProcId) :
    (s.take bucket prev p).link = update (s.unlink bucket prev p).link p s.runq := by
  rw [take, enqueue_link, link_modify]
  simp [modify]

@[simp] theorem take_runq (s : Queues) (bucket : ℕ) (prev : Option ProcId) (p : ProcId) :
    (s.take bucket prev p).runq = some p := by
  simp [take]

@[simp] theorem take_slpque (s : Queues) (bucket : ℕ) (prev : Option ProcId) (p : ProcId) :
    (s.take bucket prev p).slpque = (s.unlink bucket prev p).slpque := by
  simp [take, modify]

@[simp] theorem take_runout (s : Queues) (bucket : ℕ) (prev : Option ProcId) (p : ProcId) :
    (s.take bucket prev p).runout = s.runout := by
  simp [take, modify]

@[simp] theorem take_runoutAddr (s : Queues) (bucket : ℕ) (prev : Option ProcId) (p : ProcId) :
    (s.take bucket prev p).runoutAddr = s.runoutAddr := by
  simp [take, modify]

@[simp] theorem take_wchan (s : Queues) (bucket : ℕ) (prev : Option ProcId) (p q : ProcId) :
    ((s.take bucket prev p).proc q).p_wchan = if q = p then 0 else (s.proc q).p_wchan := by
  rw [take, enqueue_proc]
  by_cases same : q = p
  · subst same
    simp
  · simp [same]

@[simp] theorem take_stat (s : Queues) (bucket : ℕ) (prev : Option ProcId) (p q : ProcId) :
    ((s.take bucket prev p).proc q).p_stat = if q = p then .SRUN else (s.proc q).p_stat := by
  rw [take, enqueue_proc]
  by_cases same : q = p
  · subst same
    simp
  · simp [same]

@[simp] theorem take_flag (s : Queues) (bucket : ℕ) (prev : Option ProcId) (p q : ProcId) :
    ((s.take bucket prev p).proc q).p_flag = (s.proc q).p_flag := by
  rw [take, enqueue_proc]
  by_cases same : q = p
  · subst same
    simp
  · simp [same]

/-- Taking a process off its queue keeps the queues well formed. -/
theorem WellFormed.take {s : Queues} {slp : ℕ → List ProcId} {rq kept rest : List ProcId}
    {bucket : ℕ} {p : ProcId} (wf : s.WellFormed slp rq)
    (here : slp bucket = kept ++ p :: rest) :
    (s.take bucket kept.getLast? p).WellFormed (update slp bucket (kept ++ rest)) (p :: rq) := by
  have distinct : (kept ++ p :: rest).Nodup := here ▸ wf.slp_nodup bucket
  have member : p ∈ slp bucket := by rw [here]; simp
  have fresh : p ∉ rq := wf.apart bucket p member
  have chain : Chain s.link (s.slpque bucket) (kept ++ p :: rest) := here ▸ wf.sleeping bucket
  have gone : p ∉ kept ++ rest := by
    intro again
    have := List.nodup_middle.mp distinct
    exact (List.nodup_cons.mp this).1 again
  have fewer : ∀ b, ∀ q ∈ update slp bucket (kept ++ rest) b, q ∈ slp b ∧ q ≠ p := by
    intro b q mem
    by_cases same : b = bucket
    · subst same
      rw [update_self] at mem
      refine ⟨?_, fun eq => gone (eq ▸ mem)⟩
      rw [here]
      simp only [List.mem_append, List.mem_cons] at mem ⊢
      tauto
    · rw [update_of_ne same] at mem
      refine ⟨mem, fun eq => same ?_⟩
      rw [← wf.bucket_eq b q mem, eq, wf.bucket_eq bucket p member]
  -- only the predecessor's link and the link of `p` itself change
  have quiet : ∀ b, b ≠ bucket → ∀ prev ∈ kept.getLast?, prev ∉ slp b := by
    intro b other prev last mem
    have inside : prev ∈ slp bucket := by
      rw [here]
      exact List.mem_append_left _ (List.mem_of_getLast? last)
    exact other ((wf.bucket_eq b prev mem).symm.trans (wf.bucket_eq bucket prev inside))
  refine
    { sleeping := ?_, running := ?_, slp_nodup := ?_, rq_nodup := ?_, apart := ?_,
      bucket_eq := ?_, waiting := ?_, alive := ?_, idle := ?_, swapper := ?_ }
  · intro b
    rw [take_link, take_slpque, unlink_link]
    by_cases same : b = bucket
    · subst same
      rw [update_self]
      refine Chain.update ?_ gone
      rcases List.eq_nil_or_concat kept with rfl | ⟨front, prev, rfl⟩
      · simp only [List.nil_append, List.getLast?_nil, unlink, update_self]
        simp only [List.nil_append] at chain
        exact chain.2
      · simp only [List.concat_eq_append, List.getLast?_concat, unlink] at chain distinct ⊢
        exact chain.unlink distinct
    · rw [update_of_ne same]
      have off : p ∉ slp b := fun mem => (fewer b p (by rwa [update_of_ne same])).2 rfl
      refine Chain.update ?_ off
      cases last : kept.getLast? with
      | none =>
          simp only [unlink, update_of_ne same]
          exact wf.sleeping b
      | some prev =>
          simp only [unlink]
          exact (wf.sleeping b).update (quiet b same prev last)
  · rw [take_link, take_runq, unlink_link]
    have pushed : ∀ links : ProcId → Option ProcId, Chain links s.runq rq →
        Chain (update links p s.runq) (some p) (p :: rq) := fun _ run => run.push fresh
    cases last : kept.getLast? with
    | none => exact pushed _ wf.running
    | some prev =>
        refine pushed _ (wf.running.update fun mem => ?_)
        have inside : prev ∈ slp bucket := by
          rw [here]
          exact List.mem_append_left _ (List.mem_of_getLast? last)
        exact wf.apart bucket prev inside mem
  · intro b
    by_cases same : b = bucket
    · subst same
      rw [update_self]
      exact (List.nodup_cons.mp (List.nodup_middle.mp distinct)).2
    · rw [update_of_ne same]
      exact wf.slp_nodup b
  · exact List.nodup_cons.mpr ⟨fresh, wf.rq_nodup⟩
  · intro b q mem
    obtain ⟨inside, other⟩ := fewer b q mem
    simp [other, wf.apart b q inside]
  · intro b q mem
    obtain ⟨inside, other⟩ := fewer b q mem
    simpa [other] using wf.bucket_eq b q inside
  · intro b q mem
    obtain ⟨inside, other⟩ := fewer b q mem
    simpa [other] using wf.waiting b q inside
  · intro b q mem
    obtain ⟨inside, other⟩ := fewer b q mem
    simpa [other] using wf.alive b q inside
  · intro q mem
    rcases List.mem_cons.mp mem with rfl | mem
    · simp
    · have other : q ≠ p := fun same => fresh (same ▸ mem)
      simpa [other] using wf.idle q mem
  · intro b q mem
    obtain ⟨inside, other⟩ := fewer b q mem
    simpa [other] using wf.swapper b q inside

/-! ## The walk without the swapper -/

theorem onChain_settles {s : Queues} {start : Option ProcId} {cells : List ProcId} (p : ProcId)
    (chain : Chain s.link start cells) :
    Settles (fun fuel => s.onChain p fuel start) (decide (p ∈ cells)) := by
  induction cells generalizing start with
  | nil =>
      obtain rfl := chain
      exact (Settles.pure false).succ fun _ => rfl
  | cons cell cells ih =>
      obtain ⟨rfl, chain⟩ := chain
      by_cases same : cell = p
      · have found : Settles (fun fuel => s.onChain p fuel (some cell)) true :=
          (Settles.pure true).succ fun fuel => by simp [onChain, same]
        simpa [same] using found
      · have onward : Settles (fun fuel => s.onChain p fuel (some cell)) (decide (p ∈ cells)) :=
          (ih chain).succ fun fuel => by simp [onChain, same]
        simpa [Ne.symm same] using onward

theorem setrq_settles {s : Queues} {rq : List ProcId} {p : ProcId}
    (chain : Chain s.link s.runq rq) (fresh : p ∉ rq) :
    Settles (fun fuel => s.setrq fuel p) { s.setLink p s.runq with runq := some p } := by
  have absent : Settles (fun fuel => s.onChain p fuel s.runq) false := by
    simpa [fresh] using onChain_settles p chain
  exact absent.bind (fun _ found => if found then return s
    else return { s.setLink p s.runq with runq := some p }) (Settles.pure _)

/-- `setrun` of a process that has just left a sleep queue: it is queued, and then the swapper
is woken if it waits and the process is out of core. -/
theorem setrun_settles {s result : Queues} {rq : List ProcId} {p : ProcId}
    (chain : Chain s.link s.runq rq) (fresh : p ∉ rq) (awake : (s.proc p).p_wchan = 0)
    (live : (s.proc p).p_stat ≠ .free) (risen : (s.proc p).p_stat ≠ .SZOMB)
    (onward : if s.runout ≠ 0 ∧ (s.proc p).loaded = false then
        Settles (fun fuel => wakeup fuel { s.enqueue p with runout := 0 } s.runoutAddr) result
      else result = s.enqueue p) :
    Settles (fun fuel => setrun fuel s p) result := by
  let marked := s.modify p fun entry => { entry with p_stat := .SRUN }
  have marked_chain : Chain marked.link marked.runq rq := by
    rw [link_modify]
    exact chain.update fresh
  have core : (((s.enqueue p).proc p).loaded = false) = ((s.proc p).loaded = false) := by
    rw [enqueue_proc, update_self]
    rfl
  refine Settles.succ ((setrq_settles marked_chain fresh).bind (fun fuel queued =>
    if (queued.preempt p).runout ≠ 0 ∧ ((queued.preempt p).proc p).loaded = false then
      wakeup fuel { queued.preempt p with runout := 0 } (queued.preempt p).runoutAddr
    else
      return queued.preempt p) ?_) ?_
  · change Settles (fun fuel =>
      if (s.enqueue p).runout ≠ 0 ∧ ((s.enqueue p).proc p).loaded = false then
        wakeup fuel { s.enqueue p with runout := 0 } (s.enqueue p).runoutAddr
      else
        return s.enqueue p) result
    simp only [enqueue_runout, enqueue_runoutAddr, core]
    by_cases wanted : s.runout ≠ 0 ∧ (s.proc p).loaded = false
    · simpa only [if_pos wanted, enqueue_runoutAddr] using onward
    · simp only [if_neg wanted] at onward ⊢
      exact onward ▸ Settles.pure _
  · intro fuel
    simp only [setrun]
    rw [if_neg (by simp [live, risen]), if_neg (by simp [awake])]

/-- What the walks leave of the processes: those in `woken` run, the others are as before. -/
structure Carried (s s' : Queues) (woken : List ProcId) : Prop where
  wchan : ∀ q, (s'.proc q).p_wchan = if q ∈ woken then 0 else (s.proc q).p_wchan
  stat : ∀ q, (s'.proc q).p_stat = if q ∈ woken then .SRUN else (s.proc q).p_stat
  flag : ∀ q, (s'.proc q).p_flag = (s.proc q).p_flag
  addr : s'.runoutAddr = s.runoutAddr

namespace Carried

variable {s t u : Queues} {woken more : List ProcId} {chan : Chan} {q : ProcId}

theorem refl (s : Queues) : Carried s s [] :=
  ⟨fun _ => by simp, fun _ => by simp, fun _ => rfl, rfl⟩

theorem trans (first : Carried s t woken) (second : Carried t u more) :
    Carried s u (more ++ woken) where
  wchan q := by
    rw [second.wchan, first.wchan]
    by_cases late : q ∈ more <;> simp [late]
  stat q := by
    rw [second.stat, first.stat]
    by_cases late : q ∈ more <;> simp [late]
  flag q := (second.flag q).trans (first.flag q)
  addr := second.addr.trans first.addr

theorem take (s : Queues) (bucket : ℕ) (prev : Option ProcId) (p : ProcId) :
    Carried s (s.take bucket prev p) [p] :=
  ⟨fun q => by simp, fun q => by simp, fun q => by simp, by simp⟩

/-- The test of `wakeup` is unchanged for the processes that were left alone. -/
theorem wakes (carried : Carried s t woken) (left : q ∉ woken) :
    t.wakes chan q = s.wakes chan q := by
  simp [Queues.wakes, carried.wchan q, carried.stat q, left]

theorem loaded (carried : Carried s t woken) : (t.proc q).loaded = (s.proc q).loaded := by
  simp [Proc.loaded, carried.flag q]

end Carried

variable {s : Queues} {slp : ℕ → List ProcId} {rq kept rest : List ProcId} {chan : Chan}
  {p : ProcId} {prev : Option ProcId}

theorem wakes_spec (woken : s.wakes chan p = true) :
    (s.proc p).p_wchan = chan ∧ (s.proc p).p_stat ≠ .SZOMB := by
  simpa [wakes] using woken

/-- The loop passes over a process that `chan` does not wake. -/
theorem walk_pass {result : Queues} (asleep : s.wakes chan p = false)
    (onward : Settles (fun fuel => walk fuel s chan (s.link p) (some p)) result) :
    Settles (fun fuel => walk fuel s chan (some p) prev) result :=
  onward.succ fun fuel => by simp [walk, asleep]

/-- Where nothing matches the loop runs to the end of the chain and changes nothing. -/
theorem walk_idle {start : Option ProcId} {cells : List ProcId} (chain : Chain s.link start cells)
    (asleep : ∀ q ∈ cells, s.wakes chan q = false) :
    Settles (fun fuel => walk fuel s chan start prev) s := by
  induction cells generalizing start prev with
  | nil =>
      obtain rfl := chain
      exact (Settles.pure s).succ fun _ => rfl
  | cons cell cells ih =>
      obtain ⟨rfl, chain⟩ := chain
      exact walk_pass (asleep cell List.mem_cons_self)
        (ih chain fun q mem => asleep q (List.mem_cons_of_mem cell mem))

/-- One turn of the loop that takes a process off the queue. -/
theorem walk_take {result middle : Queues} (woken : s.wakes chan p = true)
    (running : Settles (fun fuel => setrun fuel
      ((s.unlink (HASH chan) prev p).modify p fun entry => { entry with p_wchan := 0 }) p) middle)
    (onward : Settles (fun fuel => walk fuel middle chan (s.link p) prev) result) :
    Settles (fun fuel => walk fuel s chan (some p) prev) result :=
  (running.bind (fun fuel after => walk fuel after chan (s.link p) prev) onward).succ fun fuel =>
    by simp [walk, woken]

/-- What `setrun` finds when the loop calls it for `p`. -/
theorem WellFormed.setrun_unlinked {result : Queues} {bucket : ℕ} (wf : s.WellFormed slp rq)
    (here : slp bucket = kept ++ p :: rest) (risen : (s.proc p).p_stat ≠ .SZOMB)
    (onward : if s.runout ≠ 0 ∧ (s.proc p).loaded = false then
        Settles (fun fuel => wakeup fuel
          { s.take bucket kept.getLast? p with runout := 0 } s.runoutAddr) result
      else result = s.take bucket kept.getLast? p) :
    Settles (fun fuel => setrun fuel
      ((s.unlink bucket kept.getLast? p).modify p fun entry => { entry with p_wchan := 0 }) p)
      result := by
  have member : p ∈ slp bucket := by rw [here]; simp
  have fresh : p ∉ rq := wf.apart bucket p member
  have chain : Chain (s.unlink bucket kept.getLast? p).link s.runq rq := by
    rw [unlink_link]
    cases last : kept.getLast? with
    | none => exact wf.running
    | some prev =>
        refine wf.running.update fun mem => wf.apart bucket prev ?_ mem
        rw [here]
        exact List.mem_append_left _ (List.mem_of_getLast? last)
  have unlinked : Chain ((s.unlink bucket kept.getLast? p).modify p fun entry =>
      { entry with p_wchan := 0 }).link s.runq rq := by
    rw [link_modify]
    simpa [modify] using chain.update fresh
  refine setrun_settles (by simpa [modify] using unlinked) fresh ?_ ?_ ?_ ?_
  · simp
  · simpa using wf.alive bucket p member
  · simpa using risen
  · simpa [modify, Proc.loaded, Queues.take] using onward

theorem WellFormed.of_runout (wf : s.WellFormed slp rq) (flag : UInt8) :
    ({ s with runout := flag } : Queues).WellFormed slp rq :=
  ⟨wf.sleeping, wf.running, wf.slp_nodup, wf.rq_nodup, wf.apart, wf.bucket_eq, wf.waiting,
    wf.alive, wf.idle, wf.swapper⟩

/-- The walk past `front` when the swapper need not be woken there: every matching process of
`front` is taken, and the walk goes on at `back` with the last one left as predecessor. -/
theorem WellFormed.walk_through (chan : Chan) (kept front back : List ProcId)
    (wf : s.WellFormed slp rq) (here : slp (HASH chan) = kept ++ (front ++ back))
    (quiet : s.runout = 0 ∨ ∀ q ∈ front, s.wakes chan q = true → (s.proc q).loaded = true) :
    ∃ s', (∀ result,
        Settles (fun fuel => walk fuel s' chan back.head?
          (kept ++ front.filter fun q => !s.wakes chan q).getLast?) result →
        Settles (fun fuel => walk fuel s chan (front ++ back).head? kept.getLast?) result) ∧
      s'.WellFormed
        (update slp (HASH chan) ((kept ++ front.filter fun q => !s.wakes chan q) ++ back))
        ((front.filter (s.wakes chan)).reverse ++ rq) ∧
      Carried s s' (front.filter (s.wakes chan)).reverse ∧ s'.runout = s.runout := by
  induction front generalizing s slp rq kept with
  | nil =>
      refine ⟨s, fun result settled => by simpa using settled, ?_, Carried.refl s, rfl⟩
      simp only [List.nil_append] at here
      simpa [← here] using wf
  | cons p front ih =>
      have after : s.link p = (front ++ back).head? :=
        (Chain.tail (here ▸ wf.sleeping (HASH chan))).start_eq
      cases woken : s.wakes chan p with
      | false =>
          have shifted : slp (HASH chan) = (kept ++ [p]) ++ (front ++ back) := by
            simpa using here
          obtain ⟨s', settled, wf', carried, runout⟩ := ih _ wf shifted
            (quiet.imp_right fun loaded q mem => loaded q (List.mem_cons_of_mem p mem))
          refine ⟨s', fun result onward => ?_, by simpa [woken] using wf',
            by simpa [woken] using carried, runout⟩
          have later := settled result (by simpa [woken] using onward)
          exact walk_pass woken (by simpa [after] using later)
      | true =>
          have distinct : (kept ++ p :: (front ++ back)).Nodup := here ▸ wf.slp_nodup (HASH chan)
          have fresh : ∀ q ∈ front, q ∉ [p] := by
            rintro q mem same
            obtain rfl := List.mem_singleton.mp same
            exact (List.nodup_cons.mp (List.nodup_middle.mp distinct)).1 (by simp [mem])
          have step := Carried.take s (HASH chan) kept.getLast? p
          have same : ∀ q ∈ front,
              (s.take (HASH chan) kept.getLast? p).wakes chan q = s.wakes chan q :=
            fun q mem => step.wakes (fresh q mem)
          have still : (s.take (HASH chan) kept.getLast? p).runout = 0 ∨ ∀ q ∈ front,
              (s.take (HASH chan) kept.getLast? p).wakes chan q = true →
                ((s.take (HASH chan) kept.getLast? p).proc q).loaded = true := by
            refine quiet.imp (fun none => by simpa using none) fun loaded q mem wakes => ?_
            rw [step.loaded]
            exact loaded q (List.mem_cons_of_mem p mem) (same q mem ▸ wakes)
          have shorter : update slp (HASH chan) (kept ++ (front ++ back)) (HASH chan) =
              kept ++ (front ++ back) := update_self _ _ _
          obtain ⟨s', settled, wf', carried, runout⟩ := ih kept (wf.take here) shorter still
          have kept_filter : front.filter (fun q =>
              !(s.take (HASH chan) kept.getLast? p).wakes chan q) =
                front.filter fun q => !s.wakes chan q :=
            List.filter_congr fun q mem => by rw [same q mem]
          have woken_filter : front.filter ((s.take (HASH chan) kept.getLast? p).wakes chan) =
              front.filter (s.wakes chan) :=
            List.filter_congr same
          rw [kept_filter, woken_filter, update_idem] at wf'
          rw [kept_filter] at settled
          rw [woken_filter] at carried
          refine ⟨s', fun result onward => ?_, by simpa [woken] using wf', ?_,
            by simpa using runout⟩
          · have later := settled result (by simpa [woken] using onward)
            refine walk_take woken (wf.setrun_unlinked here (wakes_spec woken).2 ?_)
              (by simpa [after] using later)
            refine (if_neg ?_).mpr rfl
            rintro ⟨busy, out⟩
            rcases quiet with none | loaded
            · exact busy none
            · simp [loaded p List.mem_cons_self woken] at out
          · simpa [woken] using step.trans carried

/-- The walk when the swapper need not be woken: every matching process is taken. -/
theorem WellFormed.walk_quiet (chan : Chan) (kept rest : List ProcId)
    (wf : s.WellFormed slp rq) (here : slp (HASH chan) = kept ++ rest)
    (quiet : s.runout = 0 ∨ ∀ q ∈ rest, s.wakes chan q = true → (s.proc q).loaded = true) :
    ∃ s', Settles (fun fuel => walk fuel s chan rest.head? kept.getLast?) s' ∧
      s'.WellFormed (update slp (HASH chan) (kept ++ rest.filter fun q => !s.wakes chan q))
        ((rest.filter (s.wakes chan)).reverse ++ rq) ∧
      Carried s s' (rest.filter (s.wakes chan)).reverse ∧ s'.runout = s.runout := by
  obtain ⟨s', settled, wf', carried, runout⟩ :=
    wf.walk_through chan kept rest [] (by simpa using here) quiet
  refine ⟨s', ?_, by simpa using wf', carried, runout⟩
  simpa using settled s' ((Settles.pure s').succ fun _ => rfl)

end Queues

end UnixV7
