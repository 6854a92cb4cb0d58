import Mathlib
import Mvcc.Batch.Contention

/-!
# Mutual exclusion and absence of deadlock

Calls acquire stripes in ascending order. The call that holds the greatest held stripe is complete
or can acquire its next stripe, so some call can always proceed.
-/

namespace Mvcc

/-! ## The stripes of a batch -/

namespace RowLocks

variable {locks : RowLocks} {stripe : Nat} {call : LockCall}

theorem mem_dedupNeighbours {xs : List Nat} {x : Nat} : x ∈ dedupNeighbours xs ↔ x ∈ xs := by
  induction xs using dedupNeighbours.induct with
  | case1 a rest ih => simp [dedupNeighbours, ih]
  | case2 a b rest hne ih => simp [dedupNeighbours, hne, ih]
  | case3 xs h => simp [dedupNeighbours]

theorem dedupNeighbours_ascending {xs : List Nat} (h : xs.Pairwise (· ≤ ·)) :
    (dedupNeighbours xs).Pairwise (· < ·) := by
  induction xs using dedupNeighbours.induct with
  | case1 a rest ih =>
    rw [dedupNeighbours, if_pos rfl]
    exact ih (List.pairwise_cons.1 h).2
  | case2 a b rest hne ih =>
    rw [dedupNeighbours, if_neg hne, List.pairwise_cons]
    obtain ⟨hfirst, hrest⟩ := List.pairwise_cons.1 h
    refine ⟨?_, ih hrest⟩
    intro x hx
    have hab : a ≤ b := hfirst b List.mem_cons_self
    cases List.mem_cons.1 (mem_dedupNeighbours.1 hx) with
    | inl hxb => omega
    | inr hxrest =>
      have hbx : b ≤ x := (List.pairwise_cons.1 hrest).1 x hxrest
      omega
  | case3 xs hshort =>
    cases xs with
    | nil => exact .nil
    | cons a rest =>
      cases rest with
      | nil => exact List.pairwise_singleton _ a
      | cons b rest => exact absurd rfl (hshort a b rest)

theorem stripesOf_ascending (locks : RowLocks) (table : String) (rows : List Bytes) :
    (locks.stripesOf table rows).Pairwise (· < ·) := by
  apply dedupNeighbours_ascending
  have hsorted : ((rows.map (locks.stripe table)).mergeSort (· ≤ ·)).Pairwise
      fun a b => decide (a ≤ b) = true :=
    List.pairwise_mergeSort (by simpa using fun a b c => Nat.le_trans)
      (by simpa using Nat.le_total) _
  simpa using hsorted

theorem mem_stripesOf {table : String} {rows : List Bytes} :
    stripe ∈ locks.stripesOf table rows ↔ ∃ row ∈ rows, locks.stripe table row = stripe := by
  rw [stripesOf, mem_dedupNeighbours, List.mem_mergeSort, List.mem_map]

/-! ## One call -/

theorem advance_eq_some {next : LockCall} (h : locks.advance call = some next) :
    ∃ stripe needed, call.needed = stripe :: needed ∧ locks.isTaken stripe = false ∧
      next = { call with held := call.held ++ [stripe], needed := needed } := by
  unfold advance at h
  cases hneeded : call.needed with
  | nil => simp [hneeded] at h
  | cons stripe needed =>
    simp only [hneeded] at h
    cases htaken : locks.isTaken stripe with
    | true => simp [htaken] at h
    | false =>
      simp only [htaken, Bool.false_eq_true, if_false, Option.some.injEq] at h
      exact ⟨stripe, needed, rfl, htaken, h.symm⟩

theorem advance_stripes (locks : RowLocks) (call : LockCall) :
    ((locks.advance call).getD call).holder = call.holder ∧
      ((locks.advance call).getD call).held ++ ((locks.advance call).getD call).needed =
        call.held ++ call.needed := by
  cases hadvance : locks.advance call with
  | none => exact ⟨rfl, rfl⟩
  | some next =>
    obtain ⟨stripe, needed, hneeded, -, rfl⟩ := advance_eq_some hadvance
    simp [hneeded]

theorem acquire_stuck (h : locks.advance call = none) (fuel : Nat) :
    locks.acquire fuel call = call := by
  cases fuel with
  | zero => rfl
  | succ fuel => simp [acquire, h]

theorem acquire_holder (locks : RowLocks) (fuel : Nat) (call : LockCall) :
    (locks.acquire fuel call).holder = call.holder := by
  induction fuel generalizing call with
  | zero => rfl
  | succ fuel ih =>
    have hholder := (advance_stripes locks call).1
    cases hadvance : locks.advance call with
    | none => rw [acquire_stuck hadvance]
    | some next =>
      rw [hadvance, Option.getD_some] at hholder
      rw [acquire, hadvance, ih, hholder]

theorem mem_held_advance (h : stripe ∈ ((locks.advance call).getD call).held) :
    stripe ∈ call.held ∨ locks.isTaken stripe = false := by
  cases hadvance : locks.advance call with
  | none => exact .inl (by simpa [hadvance] using h)
  | some next =>
    obtain ⟨taken, needed, -, hfree, rfl⟩ := advance_eq_some hadvance
    simp only [hadvance, Option.getD_some, List.mem_append, List.mem_singleton] at h
    cases h with
    | inl hheld => exact .inl hheld
    | inr hnew => exact .inr (hnew ▸ hfree)

end RowLocks

namespace Contention

variable {s : Contention} {stripe : Nat} {holder : String}

theorem isTaken_iff : s.locks.isTaken stripe = true ↔ ∃ c ∈ s.contenders, stripe ∈ c.call.held := by
  simp [RowLocks.isTaken, locks]

theorem not_mem_held_of_free (h : s.locks.isTaken stripe = false) {c : Contender}
    (hc : c ∈ s.contenders) : stripe ∉ c.call.held := by
  intro hheld
  rw [isTaken_iff.2 ⟨c, hc, hheld⟩] at h
  cases h

/-! ## Preservation by moves -/

/-- Calls under different names that hold no stripe in common. -/
def Apart (c d : Contender) : Prop :=
  c.call.holder ≠ d.call.holder ∧ c.call.held.Disjoint d.call.held

instance : Std.Symm Apart := ⟨fun _ _ h => ⟨h.1.symm, List.disjoint_symm h.2⟩⟩

/-- Every call takes the stripes of its rows in ascending order, and no stripe has two holders. -/
structure Sound (s : Contention) : Prop where
  stripes {c : Contender} (h : c ∈ s.contenders) :
    c.call.held ++ c.call.needed = s.locks.stripesOf c.table c.rows
  apart : s.contenders.Pairwise Apart

theorem sound_around (locks : RowLocks) : (around locks).Sound := ⟨nofun, .nil⟩

theorem Sound.enter (h : s.Sound) (holder table : String) (rows : List Bytes) :
    (s.step (.enter holder table rows)).Sound := by
  rw [Contention.step]
  split
  · exact h
  · rename_i hfresh
    constructor
    · intro c hc
      cases List.mem_append.1 hc with
      | inl hold => exact h.stripes hold
      | inr hnew =>
        cases List.mem_singleton.1 hnew
        rfl
    · apply List.pairwise_append.2
      refine ⟨h.apart, List.pairwise_singleton .., ?_⟩
      intro c hc d hd
      cases List.mem_singleton.1 hd
      have hname : c.call.holder ≠ holder := by
        intro hsame
        exact hfresh (List.any_eq_true.2 ⟨c, hc, by simpa using hsame⟩)
      exact ⟨hname, List.disjoint_nil_right _⟩

theorem Sound.take (h : s.Sound) (holder : String) : (s.step (.take holder)).Sound := by
  constructor
  · intro c hc
    obtain ⟨before, hbefore, rfl⟩ := List.mem_map.1 hc
    split
    · exact (RowLocks.advance_stripes s.locks before.call).2.trans (h.stripes hbefore)
    · exact h.stripes hbefore
  · refine List.pairwise_map.2 (h.apart.imp_of_mem ?_)
    intro c d hc hd hapart
    by_cases hcname : c.call.holder = holder
    · have hdname : d.call.holder ≠ holder := fun hd => hapart.1 (hcname.trans hd.symm)
      rw [if_pos hcname, if_neg hdname]
      refine ⟨?_, fun stripe hstripe hheld => ?_⟩
      · rw [(RowLocks.advance_stripes s.locks c.call).1]
        exact hapart.1
      · cases RowLocks.mem_held_advance hstripe with
        | inl hbefore => exact hapart.2 hbefore hheld
        | inr hfree => exact not_mem_held_of_free hfree hd hheld
    · rw [if_neg hcname]
      by_cases hdname : d.call.holder = holder
      · rw [if_pos hdname]
        refine ⟨?_, fun stripe hheld hstripe => ?_⟩
        · rw [(RowLocks.advance_stripes s.locks d.call).1]
          exact hapart.1
        · cases RowLocks.mem_held_advance hstripe with
          | inl hbefore => exact hapart.2 hheld hbefore
          | inr hfree => exact not_mem_held_of_free hfree hc hheld
      · rw [if_neg hdname]
        exact hapart

theorem Sound.leave (h : s.Sound) (holder : String) : (s.step (.leave holder)).Sound where
  stripes hc := h.stripes (List.mem_filter.1 hc).1
  apart := h.apart.filter _

theorem Sound.step (h : s.Sound) (move : Move) : (s.step move).Sound := by
  cases move with
  | enter holder table rows => exact h.enter holder table rows
  | take holder => exact h.take holder
  | leave holder => exact h.leave holder

theorem Sound.run (h : s.Sound) (moves : List Move) : (s.run moves).Sound := by
  induction moves generalizing s with
  | nil => exact h
  | cons move moves ih => exact ih (h.step move)

/-! ## The invariant of contenders -/

theorem Sound.ascending (h : s.Sound) {c : Contender} (hc : c ∈ s.contenders) :
    (c.call.held ++ c.call.needed).Pairwise (· < ·) := by
  rw [h.stripes hc]
  exact s.locks.stripesOf_ascending c.table c.rows

theorem Sound.lt_needed (h : s.Sound) {c : Contender} (hc : c ∈ s.contenders) {held needed : Nat}
    (hheld : held ∈ c.call.held) (hneeded : needed ∈ c.call.needed) : held < needed :=
  (List.pairwise_append.1 (h.ascending hc)).2.2 held hheld needed hneeded

theorem Sound.held_of_complete (h : s.Sound) {c : Contender} (hc : c ∈ s.contenders)
    (hcomplete : c.call.isComplete = true) : c.call.held = s.locks.stripesOf c.table c.rows := by
  have hnone : c.call.needed = [] := List.isEmpty_iff.1 hcomplete
  rw [← h.stripes hc, hnone, List.append_nil]

/-- Guards that hold no stripe in common cover no row in common. -/
theorem Sound.rows_apart (h : s.Sound) {c d : Contender} (hc : c ∈ s.contenders)
    (hd : d ∈ s.contenders) (hapart : Apart c d) (hccomplete : c.call.isComplete = true)
    (hdcomplete : d.call.isComplete = true) {row : Bytes} (hcrow : row ∈ c.rows)
    (hdrow : row ∈ d.rows) : c.table ≠ d.table := by
  intro htable
  have hcheld : s.locks.stripe c.table row ∈ c.call.held := by
    rw [h.held_of_complete hc hccomplete]
    exact RowLocks.mem_stripesOf.2 ⟨row, hcrow, rfl⟩
  have hdheld : s.locks.stripe c.table row ∈ d.call.held := by
    rw [h.held_of_complete hd hdcomplete]
    exact RowLocks.mem_stripesOf.2 ⟨row, hdrow, by rw [htable]⟩
  exact hapart.2 hcheld hdheld

/-- The holder of the greatest held stripe does not wait. -/
theorem Sound.exists_not_waiting (h : s.Sound) {waiting : Contender}
    (hwaiting : s.isWaiting waiting = true) : ∃ c ∈ s.contenders, s.isWaiting c = false := by
  obtain ⟨stripe, -, htaken⟩ := (Option.any_eq_true _ _).1 hwaiting
  obtain ⟨first, hfirst, hheld⟩ := isTaken_iff.1 htaken
  have hsome : ((s.contenders.flatMap (·.call.held)).max?).isSome := by
    rw [List.isSome_max?_iff]
    exact List.ne_nil_of_mem (List.mem_flatMap.2 ⟨first, hfirst, hheld⟩)
  obtain ⟨greatest, hgreatest⟩ := Option.isSome_iff_exists.1 hsome
  obtain ⟨hmem, hle⟩ := List.max?_eq_some_iff.1 hgreatest
  obtain ⟨c, hc, hcheld⟩ := List.mem_flatMap.1 hmem
  refine ⟨c, hc, ?_⟩
  apply Bool.eq_false_iff.2
  intro hcwaiting
  obtain ⟨next, hnext, hnexttaken⟩ := (Option.any_eq_true _ _).1 hcwaiting
  obtain ⟨d, hd, hdheld⟩ := isTaken_iff.1 hnexttaken
  have hlt : greatest < next := h.lt_needed hc hcheld (List.mem_of_mem_head? hnext)
  have hge : next ≤ greatest := hle next (List.mem_flatMap.2 ⟨d, hd, hdheld⟩)
  omega

theorem Sound.free_of_leave (h : s.Sound) {c : Contender} (hc : c ∈ s.contenders)
    (hstripe : stripe ∈ c.call.held) :
    (s.step (.leave c.call.holder)).locks.isTaken stripe = false := by
  apply Bool.eq_false_iff.2
  intro htaken
  obtain ⟨d, hd, hheld⟩ := isTaken_iff.1 htaken
  obtain ⟨hmem, hname⟩ := List.mem_filter.1 hd
  have hne : d ≠ c := by
    intro hsame
    simp [hsame] at hname
  have hapart : Apart d c := h.apart.forall hmem hc hne
  exact hapart.2 hheld hstripe

/-! ## Attempted calls -/

theorem advance_among (stripes : Nat) (calls : List LockCall) {call : LockCall}
    (hascending : (call.held ++ call.needed).Pairwise (· < ·)) :
    RowLocks.advance ⟨stripes, calls ++ [call]⟩ call = RowLocks.advance ⟨stripes, calls⟩ call := by
  unfold RowLocks.advance
  cases hneeded : call.needed with
  | nil => rfl
  | cons next needed =>
    have hown : next ∉ call.held := by
      intro hheld
      have hlt : next < next :=
        (List.pairwise_append.1 hascending).2.2 next hheld next (by simp [hneeded])
      omega
    simp [RowLocks.isTaken, hown]

theorem step_take_last (stripes : Nat) {others : List Contender} (table : String)
    (rows : List Bytes) {call : LockCall} (hfresh : ∀ c ∈ others, c.call.holder ≠ call.holder)
    (hascending : (call.held ++ call.needed).Pairwise (· < ·)) :
    step ⟨stripes, others ++ [⟨table, rows, call⟩]⟩ (.take call.holder) =
      ⟨stripes, others ++
        [⟨table, rows, (RowLocks.advance ⟨stripes, others.map (·.call)⟩ call).getD call⟩]⟩ := by
  have hothers : ∀ c ∈ others, ∀ next : Contender,
      (if c.call.holder = call.holder then next else c) = c := by
    intro c hc next
    rw [if_neg (hfresh c hc)]
  have hlast := advance_among stripes (others.map (·.call)) hascending
  simp only [step, locks, List.map_append, List.map_cons, List.map_nil, hlast, if_true]
  rw [List.map_congr_left (fun c hc => hothers c hc _), List.map_id']

theorem run_takes (stripes : Nat) {others : List Contender} (table : String) (rows : List Bytes)
    (call : LockCall) (hfresh : ∀ c ∈ others, c.call.holder ≠ call.holder)
    (hascending : (call.held ++ call.needed).Pairwise (· < ·)) (count : Nat) :
    run ⟨stripes, others ++ [⟨table, rows, call⟩]⟩ (List.replicate count (.take call.holder)) =
      ⟨stripes, others ++
        [⟨table, rows, RowLocks.acquire ⟨stripes, others.map (·.call)⟩ count call⟩]⟩ := by
  induction count generalizing call with
  | zero => rfl
  | succ count ih =>
    rw [List.replicate_succ, run, List.foldl_cons,
      step_take_last stripes table rows hfresh hascending, ← run]
    cases hadvance : RowLocks.advance ⟨stripes, others.map (·.call)⟩ call with
    | none =>
      rw [RowLocks.acquire_stuck hadvance, Option.getD_none, ih call hfresh hascending,
        RowLocks.acquire_stuck hadvance]
    | some next =>
      obtain ⟨hholder, hstripes⟩ := RowLocks.advance_stripes ⟨stripes, others.map (·.call)⟩ call
      rw [hadvance, Option.getD_some] at hholder hstripes
      rw [RowLocks.acquire, hadvance, Option.getD_some, ← hholder]
      exact ih next (by rwa [hholder]) (by rwa [hstripes])

theorem unlock_eq_leave (s : Contention) (holder : String) :
    (s.locks.unlock holder).2 = (s.step (.leave holder)).locks := by
  simp [RowLocks.unlock, step, locks, List.filter_map, Function.comp_def]

/-- `tryLock` takes stripes until one is held by another call, and then releases all of them. -/
theorem tryLock_eq_run {table : String} (rows : List Bytes)
    (hfresh : ∀ c ∈ s.contenders, c.call.holder ≠ holder) :
    let needed := s.locks.stripesOf table rows
    let tried := s.run (.enter holder table rows :: List.replicate needed.length (.take holder))
    ∃ call, tried = ⟨s.stripes, s.contenders ++ [⟨table, rows, call⟩]⟩ ∧
      s.locks.tryLock holder table rows =
        if call.isComplete then (true, tried.locks)
        else (false, (tried.step (.leave holder)).locks) := by
  intro needed tried
  let call := s.locks.acquire needed.length ⟨holder, [], needed⟩
  have hcall : call.holder = holder := RowLocks.acquire_holder ..
  have hunknown : ¬ s.contenders.any (·.call.holder = holder) = true := by simpa using hfresh
  have hentered : s.step (.enter holder table rows) =
      ⟨s.stripes, s.contenders ++ [⟨table, rows, ⟨holder, [], needed⟩⟩]⟩ := by
    rw [step, if_neg hunknown]
  have htried : tried = ⟨s.stripes, s.contenders ++ [⟨table, rows, call⟩]⟩ := by
    have htakes := run_takes s.stripes table rows ⟨holder, [], needed⟩ hfresh
      (s.locks.stripesOf_ascending table rows) needed.length
    rw [← hentered] at htakes
    exact htakes
  have hbefore : s.locks.calls.filter (·.holder ≠ holder) = s.locks.calls := by
    apply List.filter_eq_self.2
    simpa [locks] using hfresh
  have htry : s.locks.tryLock holder table rows =
      if call.isComplete then (true, ⟨s.stripes, s.locks.calls ++ [call]⟩)
      else (false, s.locks) := by
    rw [← hbefore]
    rfl
  have hall : tried.locks = ⟨s.stripes, s.locks.calls ++ [call]⟩ := by
    simp [htried, locks]
  have hleft : (tried.step (.leave holder)).locks = s.locks := by
    rw [← unlock_eq_leave, hall, RowLocks.unlock, List.filter_append, hbefore]
    simp [hcall, locks]
  refine ⟨call, htried, ?_⟩
  rw [htry, hleft, hall]

/-- For every interleaving of calls: stripes have one holder, two guards never cover a common row,
no call waits for a stripe of its own, some call does not wait while another does, and a call that
leaves releases all its stripes. -/
theorem exclusive_without_deadlock (stripes : Nat) (moves : List Move) :
    let s := (around (RowLocks.new stripes)).run moves
    (s.contenders.Pairwise fun c d =>
        c.call.held.Disjoint d.call.held ∧
          (c.call.isComplete = true → d.call.isComplete = true →
            ∀ row ∈ c.rows, row ∈ d.rows → c.table ≠ d.table)) ∧
      (∀ c ∈ s.contenders, ∀ stripe ∈ c.call.needed, stripe ∉ c.call.held) ∧
      (s.contenders.any s.isWaiting = true → s.contenders.any (!s.isWaiting ·) = true) ∧
      (∀ c ∈ s.contenders, ∀ stripe ∈ c.call.held,
        (s.step (.leave c.call.holder)).locks.isTaken stripe = false) := by
  intro s
  have h : s.Sound := (sound_around _).run moves
  refine ⟨?exclusive, ?own, ?deadlock, ?gone⟩
  case exclusive =>
    apply h.apart.imp_of_mem
    intro c d hc hd hapart
    refine ⟨hapart.2, ?_⟩
    intro hccomplete hdcomplete row hcrow hdrow
    exact h.rows_apart hc hd hapart hccomplete hdcomplete hcrow hdrow
  case own =>
    intro c hc stripe hneeded hheld
    have hlt : stripe < stripe := h.lt_needed hc hheld hneeded
    omega
  case deadlock =>
    intro hany
    obtain ⟨waiting, -, hwaiting⟩ := List.any_eq_true.1 hany
    obtain ⟨c, hc, hfree⟩ := h.exists_not_waiting hwaiting
    exact List.any_eq_true.2 ⟨c, hc, by simp [hfree]⟩
  case gone =>
    intro c hc stripe hheld
    exact h.free_of_leave hc hheld

/-- Two calls for rows of a single stripe: the second waits for the first. -/
theorem exclusive_without_deadlock_two :
    let s := (around (RowLocks.new 1)).run
      [.enter "first" "t" [[1]], .take "first", .enter "second" "t" [[2], [1], [2]], .take "second"]
    s.contenders.any s.isWaiting = true ∧ s.contenders.any (!s.isWaiting ·) = true :=
  ⟨by cbv, (exclusive_without_deadlock 1 _).2.2.1 (by cbv)⟩

end Contention

end Mvcc
