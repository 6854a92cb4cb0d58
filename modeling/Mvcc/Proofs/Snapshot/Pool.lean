import Mathlib.Data.List.Nodup
import Mvcc.Snapshot.Pool

/-!
# Accounting of a pool

Enqueued events are those dequeued by workers, those discarded with the queue and those still in it.
Dequeued events are finished, in progress or cut short. The counters are those of the finished ones.
-/

namespace Mvcc

/-! ## Counters -/

namespace Resolution

def isCommitted : Resolution → Bool
  | .stamped (.committed _) => true
  | _ => false

@[simp] theorem isCommitted_committed (time : Timestamp) :
    (stamped (.committed time)).isCommitted = true := rfl

@[simp] theorem isCommitted_rolledBack : (stamped .rolledBack).isCommitted = false := rfl

@[simp] theorem isCommitted_active : active.isCommitted = false := rfl

@[simp] theorem isCommitted_failed : failed.isCommitted = false := rfl

end Resolution

namespace ResolutionStatus

/-- The counters after so many resolutions, and so many events that were not even queued. -/
structure Counts (first status : ResolutionStatus) (resolutions : List Resolution)
    (refused : Nat) : Prop where
  committed : status.committed = first.committed + resolutions.countP (·.isCommitted)
  rolledBack : status.rolledBack = first.rolledBack + resolutions.count (.stamped .rolledBack)
  active : status.active = first.active + resolutions.count .active
  dropped : status.dropped = first.dropped + refused

variable {first status : ResolutionStatus} {resolutions : List Resolution} {refused : Nat}

theorem Counts.add (h : Counts first status resolutions refused) (resolution : Resolution) :
    Counts first (status.add resolution) (resolutions ++ [resolution]) refused := by
  obtain ⟨hcommitted, hrolledBack, hactive, hdropped⟩ := h
  cases resolution with
  | stamped outcome =>
    cases outcome <;> constructor <;> simp [ResolutionStatus.add, Nat.add_assoc, *]
  | active => constructor <;> simp [ResolutionStatus.add, Nat.add_assoc, *]
  | failed => constructor <;> simp [ResolutionStatus.add, *]

theorem Counts.drop (h : Counts first status resolutions refused) :
    Counts first status.drop resolutions (refused + 1) :=
  { h with dropped := by rw [ResolutionStatus.drop, h.dropped, Nat.add_assoc] }

/-- Every attempt is counted once, unless it failed. -/
theorem Counts.total (h : Counts first status resolutions refused) :
    status.committed + status.rolledBack + status.active + resolutions.count .failed =
      first.committed + first.rolledBack + first.active + resolutions.length := by
  have hkinds : resolutions.countP (·.isCommitted) + resolutions.count (.stamped .rolledBack) +
      resolutions.count .active + resolutions.count .failed = resolutions.length := by
    clear h
    induction resolutions with
    | nil => rfl
    | cons resolution rest ih =>
      cases resolution with
      | stamped outcome => cases outcome <;> simp [List.countP_cons] <;> omega
      | active => simp; omega
      | failed => simp; omega
  rw [h.committed, h.rolledBack, h.active]
  omega

end ResolutionStatus

namespace Workshop

variable {σ : Type} [CellHolder σ] [Supplier σ]

theorem stamp_status (shop : Workshop σ) (table : String) (row : Bytes) (writer : TxnId) :
    (shop.stamp table row writer).2.status = shop.status := by
  unfold stamp
  split <;> rfl

theorem handle_status (shop : Workshop σ) (event : ResolveEvent) :
    (shop.handle event).status =
      shop.status.add (shop.resolve event.table event.row event.writer).1 := by
  have hresolve : (shop.resolve event.table event.row event.writer).2.status =
      shop.status.add (shop.resolve event.table event.row event.writer).1 := by
    simp only [resolve, stamp_status]
  simp only [handle]
  split <;> exact hresolve

end Workshop

namespace ResolveQueue

variable {q : ResolveQueue}

theorem accepts_eq_false_iff (hbound : q.waiting.length ≤ q.capacity) :
    q.accepts = false ↔ q.stopped = true ∨ q.waiting.length = q.capacity := by
  simp only [accepts, Bool.and_eq_false_iff, Bool.not_eq_false', decide_eq_false_iff_not]
  have hfull : ¬ q.waiting.length < q.capacity ↔ q.waiting.length = q.capacity := by omega
  rw [hfull]

end ResolveQueue

namespace ResolverPool

open scoped List

variable {σ : Type} {p : ResolverPool σ} {first : ResolutionStatus} {capacity worker : Nat}

/-! ## Offered events -/

/-- The events that were taken into the queue. -/
def accepted (p : ResolverPool σ) : List ResolveEvent := (p.offered.filter (·.2)).map (·.1)

/-- The accounting invariant of the pool. -/
structure Sound (first : ResolutionStatus) (capacity : Nat) (p : ResolverPool σ) : Prop where
  capacity : p.queue.capacity = capacity
  bounded : p.queue.waiting.length ≤ p.queue.capacity
  accepted : p.accepted = p.handed ++ p.discarded ++ p.queue.waiting
  handed : p.handed.Perm (p.finished.map (·.1) ++ p.busy.map (·.2) ++ p.cutShort)
  counts : first.Counts p.shop.status (p.finished.map (·.2)) (p.offered.countP (!·.2))
  left : p.closed = true → p.owned = false ∧ p.crew = []
  kept : p.closed = false → p.discarded = []
  gone : p.closed = true → p.queue.waiting = []
  distinct : p.crew.Nodup
  single : (p.busy.map (·.1)).Nodup
  manned (worker : Nat) (event : ResolveEvent) : (worker, event) ∈ p.busy → worker ∈ p.crew
  released : p.owned = false → p.queue.running = false
  unstarted : p.queue.running = false → p.owned = true → p.queue.stopped = false → p.crew = []
  uncut : p.owned = true → p.queue.stopped = false → p.cutShort = []

theorem sound_new (workers size : Nat) (shop : Workshop σ) :
    (new workers size shop).Sound shop.status (ResolveQueue.powerAtLeast size) where
  capacity := rfl
  bounded := Nat.zero_le _
  accepted := rfl
  handed := .refl _
  counts := ⟨rfl, rfl, rfl, rfl⟩
  left := nofun
  kept := fun _ => rfl
  gone := fun _ => rfl
  distinct := .nil
  single := .nil
  manned := fun _ _ h => nomatch h
  released := nofun
  unstarted := fun _ _ _ => rfl
  uncut := fun _ _ => rfl

theorem Sound.busy_nil (h : p.Sound first capacity) (hcrew : p.crew = []) : p.busy = [] := by
  refine List.eq_nil_iff_forall_not_mem.2 fun held hheld => ?_
  have hmem := h.manned held.1 held.2 hheld
  simp [hcrew] at hmem

theorem Sound.lookup_eq_some_iff (h : p.Sound first capacity) {event : ResolveEvent} :
    p.busy.lookup worker = some event ↔ (worker, event) ∈ p.busy := by
  constructor
  · intro hbusy
    obtain ⟨front, back, hsplit, -⟩ := List.lookup_eq_some_iff.1 hbusy
    simp [hsplit]
  · intro hmem
    obtain ⟨front, back, hsplit⟩ := List.append_of_mem hmem
    refine List.lookup_eq_some_iff.2 ⟨front, back, hsplit, fun held hheld => ?_⟩
    have hsingle := h.single
    rw [hsplit, List.map_append, List.nodup_append] at hsingle
    have hne := hsingle.2.2 held.1 (List.mem_map_of_mem hheld) worker (by simp)
    simpa using Ne.symm hne

/-! ## Effects of an event -/

theorem offer_cases (p : ResolverPool σ) (event : ResolveEvent) :
    (p.offer event).1 = true ∧ p.closed = false ∧ p.queue.accepts = true ∧
        (p.offer event).2 = { p with
          queue := { p.queue with waiting := p.queue.waiting ++ [event] }
          offered := p.offered ++ [(event, true)] } ∨
      (p.offer event).1 = false ∧ (p.closed = true ∨ p.queue.accepts = false) ∧
        (p.offer event).2 = { p with
          shop := p.shop.drop
          offered := p.offered ++ [(event, false)] } := by
  cases hclosed : p.closed with
  | true => exact .inr ⟨by simp [offer, hclosed], .inl rfl, by simp [offer, hclosed]⟩
  | false =>
    cases haccepts : p.queue.accepts with
    | true =>
      left
      simp [offer, hclosed, ResolveQueue.offer, haccepts]
    | false =>
      right
      simp [offer, hclosed, ResolveQueue.offer, haccepts]

theorem take_of_waiting {event : ResolveEvent} {waiting : List ResolveEvent}
    (hworker : worker ∈ p.crew) (hidle : p.busy.lookup worker = none)
    (hwaiting : p.queue.waiting = event :: waiting) :
    p.take worker = { p with
      queue := { p.queue with waiting := waiting }
      busy := (worker, event) :: p.busy
      handed := p.handed ++ [event] } := by
  simp only [take, hwaiting, if_pos (And.intro hworker hidle)]

theorem take_cases (p : ResolverPool σ) (worker : Nat) :
    p.take worker = p ∨
      ∃ event waiting, worker ∈ p.crew ∧ p.busy.lookup worker = none ∧
        p.queue.waiting = event :: waiting ∧
        p.take worker = { p with
          queue := { p.queue with waiting := waiting }
          busy := (worker, event) :: p.busy
          handed := p.handed ++ [event] } := by
  by_cases hready : worker ∈ p.crew ∧ p.busy.lookup worker = none
  · obtain ⟨hworker, hidle⟩ := hready
    cases hwaiting : p.queue.waiting with
    | nil => exact .inl (by simp only [take, hwaiting, ite_self])
    | cons event waiting =>
      exact .inr ⟨event, waiting, hworker, hidle, rfl, take_of_waiting hworker hidle hwaiting⟩
  · exact .inl (if_neg hready)

theorem vacate_cases (p : ResolverPool σ) :
    (p.owned = true ∨ p.crew ≠ []) ∧ p.vacate = p ∨
      p.owned = false ∧ p.crew = [] ∧ p.vacate = { p with
        queue := { p.queue with waiting := [] }
        closed := true
        discarded := p.discarded ++ p.queue.waiting } := by
  unfold vacate
  cases howned : p.owned with
  | true => exact .inl ⟨.inl rfl, rfl⟩
  | false =>
    cases hcrew : p.crew with
    | nil => exact .inr ⟨rfl, rfl, rfl⟩
    | cons worker crew => exact .inl ⟨.inr nofun, rfl⟩

structure SameStaff (p q : ResolverPool σ) : Prop where
  owned : q.owned = p.owned
  running : q.queue.running = p.queue.running
  stopped : q.queue.stopped = p.queue.stopped
  crew : q.crew = p.crew

theorem sameStaff_offer (p : ResolverPool σ) (event : ResolveEvent) :
    p.SameStaff (p.offer event).2 := by
  rcases p.offer_cases event with ⟨-, -, -, hp⟩ | ⟨-, -, hp⟩ <;>
    (rw [hp]; exact ⟨rfl, rfl, rfl, rfl⟩)

theorem sameStaff_take (p : ResolverPool σ) (worker : Nat) : p.SameStaff (p.take worker) := by
  rcases p.take_cases worker with hp | ⟨_, _, _, _, _, hp⟩ <;>
    (rw [hp]; exact ⟨rfl, rfl, rfl, rfl⟩)

theorem sameStaff_vacate (p : ResolverPool σ) : p.SameStaff p.vacate := by
  rcases p.vacate_cases with ⟨-, hp⟩ | ⟨-, -, hp⟩ <;> (rw [hp]; exact ⟨rfl, rfl, rfl, rfl⟩)

theorem work_vacate (p : ResolverPool σ) : p.vacate.shop = p.shop ∧
    p.vacate.handed = p.handed ∧ p.vacate.finished = p.finished := by
  rcases p.vacate_cases with ⟨-, hp⟩ | ⟨-, -, hp⟩ <;> (rw [hp]; exact ⟨rfl, rfl, rfl⟩)

/-! ## Preservation by events -/

theorem Sound.start (h : p.Sound first capacity) (howned : p.owned = true) :
    p.start.Sound first capacity := by
  unfold ResolverPool.start
  split
  · exact h
  · rename_i hready
    simp only [Bool.or_eq_true, not_or, Bool.not_eq_true] at hready
    have hidle : p.busy = [] := h.busy_nil (h.unstarted hready.1 howned hready.2)
    have hstart : p.queue.start = { p.queue with running := true } :=
      if_neg (by simp [hready.2])
    rw [hstart]
    exact { h with
      left := fun hclosed => by simp [(h.left hclosed).1] at howned
      distinct := List.nodup_range
      manned := fun _ _ hmem => by simp [hidle] at hmem
      released := fun hreleased => nomatch howned.symm.trans hreleased
      unstarted := nofun }

theorem Sound.shutdown (h : p.Sound first capacity) : p.shutdown.Sound first capacity :=
  { h with
    released := fun _ => rfl
    unstarted := fun _ _ => nofun
    uncut := fun _ => nofun }

theorem Sound.offer (h : p.Sound first capacity) (event : ResolveEvent) :
    (p.offer event).2.Sound first capacity := by
  cases p.offer_cases event with
  | inl htaken =>
    obtain ⟨-, hopen, haccepts, hp⟩ := htaken
    have hroom : p.queue.waiting.length < p.queue.capacity := by
      simp only [ResolveQueue.accepts, Bool.and_eq_true, decide_eq_true_eq] at haccepts
      exact haccepts.2
    rw [hp]
    exact { h with
      bounded := by
        simp only [List.length_append, List.length_singleton]
        omega
      accepted := by
        have haccepted := h.accepted
        simp only [ResolverPool.accepted] at haccepted ⊢
        simp [haccepted]
      counts := by simpa using h.counts
      gone := by simp [hopen] }
  | inr hrefused =>
    obtain ⟨-, -, hp⟩ := hrefused
    rw [hp]
    exact { h with
      accepted := by simpa [ResolverPool.accepted] using h.accepted
      counts := by simpa [Workshop.drop] using h.counts.drop }

theorem Sound.take (h : p.Sound first capacity) (worker : Nat) :
    (p.take worker).Sound first capacity := by
  cases p.take_cases worker with
  | inl hidle => rwa [hidle]
  | inr htaken =>
    obtain ⟨event, waiting, hworker, hidle, hwaiting, hp⟩ := htaken
    have hbounded := h.bounded
    have haccepted := h.accepted
    rw [hwaiting] at hbounded haccepted
    have hopen : p.closed = false := by
      apply Bool.eq_false_iff.2
      intro hclosed
      simp [h.gone hclosed] at hwaiting
    rw [hp]
    exact { h with
      bounded := Nat.le_of_succ_le hbounded
      accepted := by simpa [ResolverPool.accepted, h.kept hopen] using haccepted
      handed := by
        calc p.handed ++ [event]
          _ ~ event :: p.handed := List.perm_append_singleton event p.handed
          _ ~ event :: (p.finished.map (·.1) ++ (p.busy.map (·.2) ++ p.cutShort)) := by
            simpa using h.handed
          _ ~ p.finished.map (·.1) ++ event :: (p.busy.map (·.2) ++ p.cutShort) :=
            List.perm_middle.symm
          _ = p.finished.map (·.1) ++ ((worker, event) :: p.busy).map (·.2) ++ p.cutShort := by
            simp
      gone := by simp [hopen]
      single := by
        refine List.nodup_cons.2 ⟨fun hmem => ?_, h.single⟩
        obtain ⟨held, hheld, hsame⟩ := List.mem_map.1 hmem
        have hne := List.lookup_eq_none_iff.1 hidle held hheld
        simp [hsame] at hne
      manned := by
        intro other held hmem
        rcases List.mem_cons.1 hmem with hnew | hold
        · cases hnew
          exact hworker
        · exact h.manned other held hold }

theorem Sound.vacate (h : p.Sound first capacity) : p.vacate.Sound first capacity := by
  rcases p.vacate_cases with ⟨-, hp⟩ | ⟨howned, hcrew, hp⟩
  · rwa [hp]
  · rw [hp]
    exact { h with
      bounded := Nat.zero_le _
      accepted := by simpa [ResolverPool.accepted] using h.accepted
      left := fun _ => ⟨howned, hcrew⟩
      kept := nofun
      gone := fun _ => rfl }

theorem Sound.release (h : p.Sound first capacity) (howned : p.owned = true) :
    p.release.Sound first capacity := by
  refine Sound.vacate
    { h with left := ?_, released := fun _ => rfl, unstarted := nofun, uncut := nofun }
  intro hclosed
  simp [(h.left hclosed).1] at howned

theorem Sound.dismiss (h : p.Sound first capacity) (hrunning : p.queue.running = false)
    (worker : Nat) : (p.dismiss worker).Sound first capacity :=
  { h with
    handed := by
      have hsplit : p.busy ~ p.busy.filter (·.1 ≠ worker) ++ p.busy.filter (·.1 = worker) := by
        simpa using (List.filter_append_perm (·.1 ≠ worker) p.busy).symm
      have hbusy := (hsplit.map (·.2)).append_right p.cutShort
      calc p.handed
        _ ~ p.finished.map (·.1) ++ (p.busy.map (·.2) ++ p.cutShort) := by
          simpa using h.handed
        _ ~ p.finished.map (·.1) ++ ((p.busy.filter (·.1 ≠ worker)).map (·.2) ++
            (p.cutShort ++ (p.busy.filter (·.1 = worker)).map (·.2))) := by
          refine List.Perm.append_left _ (hbusy.trans ?_)
          rw [List.map_append, List.append_assoc]
          exact List.perm_append_comm.append_left _
        _ = _ := by simp [ResolverPool.dismiss]
    left := fun hclosed => ⟨(h.left hclosed).1, by simp [ResolverPool.dismiss, (h.left hclosed).2]⟩
    distinct := h.distinct.erase worker
    single := h.single.sublist (List.filter_sublist.map _)
    manned := by
      intro other event hmem
      obtain ⟨hheld, hother⟩ := List.mem_filter.1 hmem
      exact (List.mem_erase_of_ne (of_decide_eq_true hother)).2 (h.manned other event hheld)
    unstarted := by
      intro _ howned hstopped
      simp [ResolverPool.dismiss, h.unstarted hrunning howned hstopped]
    uncut := by
      intro howned hstopped
      have hidle := h.busy_nil (h.unstarted hrunning howned hstopped)
      simp [ResolverPool.dismiss, hidle, h.uncut howned hstopped] }

theorem Sound.yield (h : p.Sound first capacity) (worker : Nat) :
    (p.yield worker).Sound first capacity := by
  unfold ResolverPool.yield
  split
  · exact h
  · rename_i hrunning
    exact (h.dismiss (Bool.eq_false_iff.2 hrunning) worker).vacate

section

variable [CellHolder σ] [Supplier σ]

theorem finish_cases (p : ResolverPool σ) (worker : Nat) :
    p.finish worker = p ∨
      ∃ event, (worker, event) ∈ p.busy ∧
        p.finish worker = { p with
          shop := p.shop.handle event
          busy := p.busy.erase (worker, event)
          finished := p.finished ++
            [(event, (p.shop.resolve event.table event.row event.writer).1)] } := by
  unfold finish
  cases hbusy : p.busy.lookup worker with
  | none => exact .inl rfl
  | some event =>
    obtain ⟨front, back, hsplit, -⟩ := List.lookup_eq_some_iff.1 hbusy
    exact .inr ⟨event, by simp [hsplit], rfl⟩

theorem sameStaff_finish (p : ResolverPool σ) (worker : Nat) : p.SameStaff (p.finish worker) := by
  rcases p.finish_cases worker with hp | ⟨_, _, hp⟩ <;> (rw [hp]; exact ⟨rfl, rfl, rfl, rfl⟩)

theorem Sound.finish (h : p.Sound first capacity) (worker : Nat) :
    (p.finish worker).Sound first capacity := by
  cases p.finish_cases worker with
  | inl hidle => rwa [hidle]
  | inr hdone =>
    obtain ⟨event, hmem, hp⟩ := hdone
    rw [hp]
    exact { h with
      handed := by
        have hbusy : p.busy.map (·.2) ~ event :: (p.busy.erase (worker, event)).map (·.2) :=
          (List.perm_cons_erase hmem).map (·.2)
        have hmoved := (hbusy.append_left (p.finished.map (·.1))).append_right p.cutShort
        simpa using h.handed.trans hmoved
      counts := by
        rw [Workshop.handle_status]
        simpa using h.counts.add _
      single := h.single.sublist (List.erase_sublist.map _)
      manned := fun other held hheld => h.manned other held (List.mem_of_mem_erase hheld) }

/-- Finishing clears the event of this worker only, and records and counts it once. -/
theorem Sound.finish_busy (h : p.Sound first capacity) {event : ResolveEvent}
    (hbusy : (worker, event) ∈ p.busy) :
    let resolution := (p.shop.resolve event.table event.row event.writer).1
    let q := p.finish worker
    q.busy.lookup worker = none ∧ p.busy ~ (worker, event) :: q.busy ∧ q.queue = p.queue ∧
      q.finished = p.finished ++ [(event, resolution)] ∧
      q.shop.status = p.shop.status.add resolution := by
  have hfinish : p.finish worker = { p with
      shop := p.shop.handle event
      busy := p.busy.erase (worker, event)
      finished := p.finished ++
        [(event, (p.shop.resolve event.table event.row event.writer).1)] } := by
    simp only [ResolverPool.finish, h.lookup_eq_some_iff.2 hbusy]
  rw [hfinish]
  refine ⟨?_, List.perm_cons_erase hbusy, rfl, rfl, p.shop.handle_status event⟩
  refine List.lookup_eq_none_iff.2 fun held hheld => ?_
  by_contra hsame
  have hkey : worker = held.1 := by simpa using hsame
  have heq : held = (worker, event) :=
    List.inj_on_of_nodup_map h.single (List.mem_of_mem_erase hheld) hbusy hkey.symm
  rw [heq] at hheld
  exact (List.Nodup.of_map _ h.single).not_mem_erase hheld

theorem Sound.step (h : p.Sound first capacity) (event : Event σ) :
    (p.step event).Sound first capacity := by
  cases event with
  | start =>
    simp only [ResolverPool.step]
    split
    · rename_i howned
      exact h.start howned
    · exact h
  | shutdown =>
    simp only [ResolverPool.step]
    split
    · exact h.shutdown
    · exact h
  | offer event => exact h.offer event
  | take worker => exact h.take worker
  | finish worker => exact h.finish worker
  | yield worker => exact h.yield worker
  | release =>
    simp only [ResolverPool.step]
    split
    · rename_i howned
      exact h.release howned
    · exact h
  | meanwhile tables supplier => exact { h with }

theorem Sound.run (h : p.Sound first capacity) (events : List (Event σ)) :
    (p.run events).Sound first capacity := by
  induction events generalizing p with
  | nil => exact h
  | cons event events ih => exact ih (h.step event)

end

end ResolverPool

end Mvcc
