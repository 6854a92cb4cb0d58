import Mvcc.Proofs.Snapshot.Pool

/-!
# Stopping a pool

A request to stop does not interrupt a worker. From then on no worker is spawned, and every worker
with a requested abort works at most until it yields. An event is lost with a worker that ends
before finishing it, or with the queue.
-/

namespace Mvcc

namespace ResolverPool

open scoped List

variable {σ : Type} {p q : ResolverPool σ} {first : ResolutionStatus} {capacity worker : Nat}

/-! ## Present workers -/

theorem sameStaff_yield (p : ResolverPool σ) (worker : Nat) :
    (p.yield worker).owned = p.owned ∧ (p.yield worker).queue.stopped = p.queue.stopped ∧
      (p.yield worker).queue.running = p.queue.running ∧
      (p.yield worker).crew = if p.queue.running then p.crew else p.crew.erase worker := by
  unfold yield
  split
  · exact ⟨rfl, rfl, rfl, rfl⟩
  · have hstaff := (p.dismiss worker).sameStaff_vacate
    exact ⟨hstaff.owned, hstaff.stopped, hstaff.running, hstaff.crew⟩

theorem release_owned (p : ResolverPool σ) : p.release.owned = false :=
  (sameStaff_vacate _).owned

/-- The queue is closed exactly if it has neither an owner nor a worker. -/
def Closes (p : ResolverPool σ) : Prop := p.closed = true ↔ p.owned = false ∧ p.crew = []

theorem closes_new (workers size : Nat) (shop : Workshop σ) : (new workers size shop).Closes := by
  simp [Closes, new]

theorem closes_vacate (h : p.closed = true → p.owned = false ∧ p.crew = []) :
    p.vacate.Closes := by
  rcases p.vacate_cases with ⟨hheld, hp⟩ | ⟨howned, hcrew, hp⟩
  · rw [hp]
    refine ⟨h, fun ⟨howned, hcrew⟩ => ?_⟩
    rcases hheld with hheld | hheld
    · cases howned.symm.trans hheld
    · exact absurd hcrew hheld
  · rw [hp]
    exact ⟨fun _ => ⟨howned, hcrew⟩, fun _ => rfl⟩

/-- All workers were asked to stop, and no others can be spawned. -/
structure Stopping (p : ResolverPool σ) : Prop where
  running : p.queue.running = false
  stopped : p.owned = true → p.queue.stopped = true

theorem SameStaff.stopping (hstaff : p.SameStaff q) (h : p.Stopping) :
    q.Stopping ∧ q.crew ⊆ p.crew := by
  refine ⟨⟨hstaff.running.trans h.running, fun howned => ?_⟩, fun _ hmem => hstaff.crew ▸ hmem⟩
  exact hstaff.stopped.trans (h.stopped (hstaff.owned ▸ howned))

theorem SameStaff.stopped_step {event : Event σ} (hstaff : p.SameStaff q)
    (hevent : event ≠ .shutdown) (h : q.owned = true) : p.owned = true ∧
      (q.queue.stopped = true ↔ p.queue.stopped = true ∨ event = .shutdown) := by
  rw [hstaff.stopped, or_iff_left hevent]
  exact ⟨hstaff.owned ▸ h, Iff.rfl⟩

theorem Sound.offer_eq_false_iff (h : p.Sound first capacity) (howned : p.owned = true)
    (event : ResolveEvent) : (p.offer event).1 = false ↔
      p.queue.stopped = true ∨ p.queue.waiting.length = p.queue.capacity := by
  have hopen : p.closed = false := Bool.eq_false_iff.2 fun hclosed => by
    simp [(h.left hclosed).1] at howned
  rw [← ResolveQueue.accepts_eq_false_iff h.bounded]
  rcases p.offer_cases event with ⟨hanswer, -, haccepts, -⟩ | ⟨hanswer, hcause, -⟩
  · simp [hanswer, haccepts]
  · simpa [hanswer, hopen] using hcause

theorem start_of_running (h : p.queue.running = true) : p.start = p := by
  unfold start
  rw [h]
  rfl

theorem start_of_unstarted (hrunning : p.queue.running = false)
    (hstopped : p.queue.stopped = false) :
    p.start.queue.running = true ∧ p.start.crew = List.range p.queue.workers := by
  unfold start
  rw [hrunning, hstopped]
  exact ⟨by simp [ResolveQueue.start, hstopped], rfl⟩

/-! ## Effects on workers -/

variable [CellHolder σ] [Supplier σ] {event : Event σ}

theorem stopped_step (h : (p.step event).owned = true) :
    p.owned = true ∧
      ((p.step event).queue.stopped = true ↔ p.queue.stopped = true ∨ event = .shutdown) := by
  cases event with
  | start =>
    by_cases howned : p.owned = true
    · simp only [step, if_pos howned, start, ResolveQueue.start]
      split
      · simp [howned]
      · split <;> simp [howned]
    · simp [step, howned] at h
  | shutdown =>
    by_cases howned : p.owned = true
    · simp [step, howned, shutdown, ResolveQueue.shutdown]
    · simp [step, howned] at h
  | release =>
    by_cases howned : p.owned = true
    · simp [step, howned, release_owned] at h
    · simp [step, howned] at h
  | yield worker =>
    obtain ⟨howned, hstopped, -⟩ := p.sameStaff_yield worker
    simp only [step, howned, hstopped] at h ⊢
    simp [h]
  | offer event => exact (p.sameStaff_offer event).stopped_step (by simp) h
  | take worker => exact (p.sameStaff_take worker).stopped_step (by simp) h
  | finish worker => exact (p.sameStaff_finish worker).stopped_step (by simp) h
  | meanwhile tables supplier => exact ⟨h, by simp [step]⟩

theorem stopped_run {events : List (Event σ)} (h : (p.run events).owned = true) :
    p.owned = true ∧
      ((p.run events).queue.stopped = true ↔ p.queue.stopped = true ∨ .shutdown ∈ events) := by
  induction events generalizing p with
  | nil => simpa [run] using h
  | cons event events ih =>
    obtain ⟨howned, hrest⟩ := ih h
    obtain ⟨hbefore, hstep⟩ := stopped_step howned
    refine ⟨hbefore, ?_⟩
    rw [run, List.foldl_cons, ← run, hrest, hstep, List.mem_cons, or_assoc,
      eq_comm (a := Event.shutdown)]

theorem Closes.step (h : p.Closes) (event : Event σ) : (p.step event).Closes := by
  cases event with
  | start =>
    simp only [ResolverPool.step]
    split
    · rename_i howned
      have hopen : p.closed = false := Bool.eq_false_iff.2 fun hclosed => by
        simp [(h.1 hclosed).1] at howned
      unfold start
      split
      · exact h
      · simp [Closes, hopen, howned]
    · exact h
  | shutdown =>
    simp only [ResolverPool.step]
    split <;> exact h
  | offer event =>
    rcases p.offer_cases event with ⟨-, -, -, hp⟩ | ⟨-, -, hp⟩ <;>
      (simp only [ResolverPool.step, hp]; exact h)
  | take worker =>
    rcases p.take_cases worker with hp | ⟨_, _, -, -, -, hp⟩ <;>
      (simp only [ResolverPool.step, hp]; exact h)
  | finish worker =>
    rcases p.finish_cases worker with hp | ⟨_, -, hp⟩ <;>
      (simp only [ResolverPool.step, hp]; exact h)
  | yield worker =>
    simp only [ResolverPool.step, yield]
    split
    · exact h
    · refine closes_vacate fun hclosed => ?_
      have hleft := h.1 hclosed
      exact ⟨hleft.1, by simp [dismiss, hleft.2]⟩
  | release =>
    simp only [ResolverPool.step]
    split
    · rename_i howned
      refine closes_vacate fun hclosed => ?_
      simp [(h.1 hclosed).1] at howned
    · exact h
  | meanwhile tables supplier => exact h

theorem Closes.run (h : p.Closes) (events : List (Event σ)) : (p.run events).Closes := by
  induction events generalizing p with
  | nil => exact h
  | cons event events ih => exact ih (h.step event)

/-! ## After a request to stop -/

theorem Stopping.start (h : p.Stopping) : p.step .start = p := by
  by_cases howned : p.owned = true
  · simp [ResolverPool.step, howned, ResolverPool.start, h.stopped howned]
  · exact if_neg howned

theorem Stopping.step (h : p.Stopping) (event : Event σ) :
    (p.step event).Stopping ∧ (p.step event).crew ⊆ p.crew := by
  cases event with
  | start =>
    rw [h.start]
    exact ⟨h, fun _ hmem => hmem⟩
  | shutdown =>
    simp only [ResolverPool.step]
    split
    · exact ⟨⟨rfl, fun _ => rfl⟩, fun _ hmem => hmem⟩
    · exact ⟨h, fun _ hmem => hmem⟩
  | release =>
    simp only [ResolverPool.step]
    split
    · have hstaff :=
        sameStaff_vacate { p with queue := { p.queue with running := false }, owned := false }
      exact ⟨⟨hstaff.running, fun howned => absurd (hstaff.owned.symm.trans howned) (by simp)⟩,
        fun _ hmem => hstaff.crew ▸ hmem⟩
    · exact ⟨h, fun _ hmem => hmem⟩
  | yield worker =>
    obtain ⟨howned, hstopped, hrunning, hcrew⟩ := p.sameStaff_yield worker
    refine ⟨⟨hrunning.trans h.running, fun hown => ?_⟩, ?_⟩
    · exact hstopped.trans (h.stopped (howned ▸ hown))
    · simp only [ResolverPool.step, hcrew, h.running]
      exact List.erase_subset
  | offer event => exact (p.sameStaff_offer event).stopping h
  | take worker => exact (p.sameStaff_take worker).stopping h
  | finish worker => exact (p.sameStaff_finish worker).stopping h
  | meanwhile tables supplier => exact ⟨⟨h.running, h.stopped⟩, fun _ hmem => hmem⟩

theorem Stopping.run (h : p.Stopping) (events : List (Event σ)) :
    (p.run events).Stopping ∧ (p.run events).crew ⊆ p.crew := by
  induction events generalizing p with
  | nil => exact ⟨h, fun _ hmem => hmem⟩
  | cons event events ih =>
    obtain ⟨hstep, hcrew⟩ := h.step event
    obtain ⟨hrun, hrest⟩ := ih hstep
    exact ⟨hrun, fun worker hmem => hcrew (hrest hmem)⟩

theorem Sound.stopping_shutdown (h : p.Sound first capacity) : (p.step .shutdown).Stopping := by
  by_cases howned : p.owned = true
  · rw [ResolverPool.step, if_pos howned]
    exact ⟨rfl, fun _ => rfl⟩
  · rw [ResolverPool.step, if_neg howned]
    exact ⟨h.released (Bool.eq_false_iff.2 howned), fun h => absurd h howned⟩

/-! ## Busy workers -/

/-- Only present workers take and finish events. -/
theorem Sound.work_step (h : p.Sound first capacity) (event : Event σ) :
    ((p.step event).handed = p.handed ∨ ∃ worker ∈ p.crew, event = .take worker) ∧
      ((p.step event).finished = p.finished ∨ ∃ worker ∈ p.crew, event = .finish worker) := by
  cases event with
  | start =>
    simp only [ResolverPool.step, ResolverPool.start]
    split
    · split <;> exact ⟨.inl rfl, .inl rfl⟩
    · exact ⟨.inl rfl, .inl rfl⟩
  | shutdown =>
    simp only [ResolverPool.step]
    split <;> exact ⟨.inl rfl, .inl rfl⟩
  | offer event =>
    rcases p.offer_cases event with ⟨-, -, -, hp⟩ | ⟨-, -, hp⟩ <;>
      (rw [ResolverPool.step, hp]; exact ⟨.inl rfl, .inl rfl⟩)
  | take worker =>
    rcases p.take_cases worker with hp | ⟨_, _, hworker, -, -, hp⟩
    · exact ⟨.inl (congrArg ResolverPool.handed hp :), .inl (congrArg ResolverPool.finished hp :)⟩
    · exact ⟨.inr ⟨worker, hworker, rfl⟩, .inl (congrArg ResolverPool.finished hp :)⟩
  | finish worker =>
    rcases p.finish_cases worker with hp | ⟨held, hbusy, hp⟩
    · exact ⟨.inl (congrArg ResolverPool.handed hp :), .inl (congrArg ResolverPool.finished hp :)⟩
    · exact ⟨.inl (congrArg ResolverPool.handed hp :),
        .inr ⟨worker, h.manned worker held hbusy, rfl⟩⟩
  | yield worker =>
    simp only [ResolverPool.step, ResolverPool.yield]
    split
    · exact ⟨.inl rfl, .inl rfl⟩
    · obtain ⟨-, hhanded, hfinished⟩ := (p.dismiss worker).work_vacate
      exact ⟨.inl hhanded, .inl hfinished⟩
  | release =>
    simp only [ResolverPool.step]
    split
    · exact ⟨.inl (work_vacate _).2.1, .inl (work_vacate _).2.2⟩
    · exact ⟨.inl rfl, .inl rfl⟩
  | meanwhile tables supplier => exact ⟨.inl rfl, .inl rfl⟩

theorem Sound.work_run (h : p.Sound first capacity) (hstopping : p.Stopping) (hcrew : p.crew = [])
    (events : List (Event σ)) :
    (p.run events).handed = p.handed ∧ (p.run events).finished = p.finished := by
  induction events generalizing p with
  | nil => exact ⟨rfl, rfl⟩
  | cons event events ih =>
    obtain ⟨hnext, hless⟩ := hstopping.step event
    obtain ⟨hhanded, hfinished⟩ := ih (h.step event) hnext (List.subset_nil.1 (hcrew ▸ hless))
    have hnobody (worker : Nat) : worker ∉ p.crew := by simp [hcrew]
    obtain ⟨htaken, hdone⟩ := h.work_step event
    refine ⟨hhanded.trans (htaken.resolve_right ?_), hfinished.trans (hdone.resolve_right ?_)⟩
    · exact fun ⟨worker, hworker, _⟩ => hnobody worker hworker
    · exact fun ⟨worker, hworker, _⟩ => hnobody worker hworker

theorem Sound.not_mem_crew_yield (h : p.Sound first capacity) (hstopping : p.Stopping)
    (worker : Nat) : worker ∉ (p.step (.yield worker)).crew := by
  obtain ⟨-, -, -, hcrew⟩ := p.sameStaff_yield worker
  simp only [ResolverPool.step, hcrew, hstopping.running]
  exact h.distinct.not_mem_erase

/-! ## One worker alone -/

theorem take_idle {event : ResolveEvent} {waiting : List ResolveEvent}
    (hworker : 0 ∈ p.crew) (hidle : p.busy = []) (hwaiting : p.queue.waiting = event :: waiting) :
    (p.step (.take 0)).step (.finish 0) = { p with
      queue := { p.queue with waiting := waiting }
      shop := p.shop.handle event
      handed := p.handed ++ [event]
      finished := p.finished ++
        [(event, (p.shop.resolve event.table event.row event.writer).1)] } := by
  simp [step, take, finish, hworker, hidle, hwaiting]

/-- Draining a queue is a run of one worker that takes the events in order. -/
theorem drain_eq_run (hrunning : p.queue.running = true) (hworker : 0 ∈ p.crew)
    (hidle : p.busy = []) :
    let q := p.run (p.queue.waiting.flatMap fun _ => [.take 0, .finish 0])
    p.shop.drain p.queue = (q.shop, q.queue) := by
  generalize hwaiting : p.queue.waiting = waiting
  induction waiting generalizing p with
  | nil =>
    have hqueue : { p.queue with waiting := [] } = p.queue := by rw [← hwaiting]
    rw [Workshop.drain, if_pos hrunning, hwaiting, hqueue]
    rfl
  | cons event waiting ih =>
    let next := (p.step (.take 0)).step (.finish 0)
    have hnext : next = _ := take_idle hworker hidle hwaiting
    have hdrain : p.shop.drain p.queue = next.shop.drain next.queue := by
      simp [Workshop.drain, hnext, hrunning, hwaiting]
    rw [hdrain]
    exact ih (p := next) (by simp [hnext, hrunning]) (by simp [hnext, hworker])
      (by simp [hnext, hidle]) (by simp [hnext])

/-! ## Every run -/

/-- In every run of a pool the queue stays within its capacity. Every offered event is accepted
once, at the end of the queue, or counted as dropped; while the queue has its owner, it is dropped
exactly after a shutdown or when the queue is full. The accepted events are, in order, those taken
by workers, those discarded with the queue and those waiting; and each taken event is finished,
busy, or cut short by the stop of its worker. Starting spawns the workers once. An idle worker takes
the first waiting event; a busy worker that finishes its event is idle afterwards, and the event is
recorded and counted once, unless its resolution failed. After a shutdown no event is accepted and
starting has no effect. Workers that have not yielded may still take and finish events; a worker
that is gone does not return, and without workers no event is taken or finished. -/
theorem conservation (workers size : Nat) (shop : Workshop σ) (events : List (Event σ)) :
    let p := (new workers size shop).run events
    p.Sound shop.status (ResolveQueue.powerAtLeast size) ∧ p.Closes ∧
      (∀ event,
        let q := (p.offer event).2
        if (p.offer event).1 then
          q.queue.waiting = p.queue.waiting ++ [event] ∧ q.shop.status = p.shop.status
        else q.queue.waiting = p.queue.waiting ∧ q.shop.status = p.shop.status.drop) ∧
      (p.owned = true → ∀ event, (p.offer event).1 = false ↔
        .shutdown ∈ events ∨ p.queue.waiting.length = p.queue.capacity) ∧
      (p.queue.running = true → p.step .start = p) ∧
      (p.owned = true → p.queue.running = false → p.queue.stopped = false →
        let q := p.step .start
        q.queue.running = true ∧ q.crew = List.range p.queue.workers) ∧
      (∀ worker event waiting, worker ∈ p.crew → p.busy.lookup worker = none →
        p.queue.waiting = event :: waiting →
          let q := p.step (.take worker)
          q.queue.waiting = waiting ∧ q.busy = (worker, event) :: p.busy ∧
            q.handed = p.handed ++ [event]) ∧
      (∀ worker event, (worker, event) ∈ p.busy →
        let resolution := (p.shop.resolve event.table event.row event.writer).1
        let q := p.step (.finish worker)
        q.busy.lookup worker = none ∧ p.busy.Perm ((worker, event) :: q.busy) ∧
          q.queue = p.queue ∧ q.finished = p.finished ++ [(event, resolution)] ∧
          q.shop.status = p.shop.status.add resolution) ∧
      p.shop.status.committed + p.shop.status.rolledBack + p.shop.status.active +
          (p.finished.map (·.2)).count .failed =
        shop.status.committed + shop.status.rolledBack + shop.status.active + p.finished.length ∧
      ∀ later,
        let q := (p.step .shutdown).run later
        (q.owned = true → ∀ event, (q.offer event).1 = false) ∧ q.step .start = q ∧
          q.crew ⊆ p.crew ∧
          (∀ step, (q.step step).handed = q.handed ∨ ∃ worker ∈ q.crew, step = .take worker) ∧
          (∀ step,
            (q.step step).finished = q.finished ∨ ∃ worker ∈ q.crew, step = .finish worker) ∧
          (∀ worker more, worker ∉ ((q.step (.yield worker)).run more).crew) ∧
          (q.crew = [] → ∀ more,
            (q.run more).handed = q.handed ∧ (q.run more).finished = q.finished) := by
  intro p
  have h : p.Sound shop.status (ResolveQueue.powerAtLeast size) := (sound_new ..).run events
  refine ⟨h, (closes_new ..).run events, ?offered, ?refused, ?again, ?started, ?taken, ?done,
    ?counted, ?stopped⟩
  case offered =>
    intro event
    rcases p.offer_cases event with ⟨hanswer, -, -, hp⟩ | ⟨hanswer, -, hp⟩
    · simp [hanswer, hp]
    · simp [hanswer, hp, Workshop.drop]
  case refused =>
    intro howned event
    have hrun := (stopped_run howned).2
    have hnew : (new workers size shop).queue.stopped = false := rfl
    rw [h.offer_eq_false_iff howned, hrun]
    simp [hnew]
  case again =>
    intro hrunning
    simp only [step, start_of_running hrunning, ite_self]
  case started =>
    intro howned hrunning hstopped q
    have hq : q = p.start := if_pos howned
    rw [hq]
    exact start_of_unstarted hrunning hstopped
  case taken =>
    intro worker event waiting hworker hidle hwaiting q
    have hq : q = _ := take_of_waiting hworker hidle hwaiting
    rw [hq]
    exact ⟨rfl, rfl, rfl⟩
  case done =>
    intro worker event hbusy
    exact h.finish_busy hbusy
  case counted => simpa using h.counts.total
  case stopped =>
    intro later q
    obtain ⟨hstopping, hcrew⟩ := h.stopping_shutdown.run later
    have hq : q.Sound shop.status (ResolveQueue.powerAtLeast size) :=
      (h.step .shutdown).run later
    have hbefore : (p.step .shutdown).crew = p.crew := by
      simp only [step]
      split <;> rfl
    refine ⟨fun howned event => ?_, hstopping.start, hbefore ▸ hcrew, fun step => ?_,
      fun step => ?_, fun worker more hmem => ?_, fun hnobody => hq.work_run hstopping hnobody⟩
    · exact (hq.offer_eq_false_iff howned event).2 (.inl (hstopping.stopped howned))
    · exact (hq.work_step step).1
    · exact (hq.work_step step).2
    · obtain ⟨hyield, -⟩ := hstopping.step (.yield worker)
      exact hq.not_mem_crew_yield hstopping worker ((hyield.run more).2 hmem)

/-- An active writer, and counters at zero. -/
def activeShop : Workshop (Site FixedRecords) :=
  ⟨.empty, ⟨.new "accounts", .ofList [.new 1 1 0]⟩, none, .zero, []⟩

/-- An accepted event is neither waiting nor finished once the queue is closed by its owner, nor
when its worker is gone before finishing it. A worker that was asked to stop finishes its event, and
a further one that was waiting. -/
theorem not_conserved_when_stopped :
    let first : ResolveEvent := ⟨"accounts", [1], 1, false⟩
    let second : ResolveEvent := ⟨"accounts", [2], 1, false⟩
    let gone := (new 1 1 activeShop).run [.offer first, .shutdown, .release]
    let stopped := (new 1 2 activeShop).run
      [.start, .offer first, .offer second, .take 0, .shutdown]
    let cut := stopped.run [.yield 0]
    let late := stopped.run [.finish 0, .take 0, .finish 0]
    (gone.accepted.length ≠ gone.queue.waiting.length + gone.finished.length ∧
      gone.shop.status = .zero) ∧
    cut.accepted.length ≠ cut.queue.waiting.length + cut.finished.length ∧
    stopped.queue.waiting = [second] ∧ stopped.finished = [] ∧
      late.finished = [(first, .active), (second, .active)] := by
  decide +kernel

end ResolverPool

end Mvcc
