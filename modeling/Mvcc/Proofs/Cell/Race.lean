import Mvcc.Cell.Race
import Mvcc.Proofs.Cell.Stamping

/-!
# Stamps of purged versions

When all callers have returned, no stamp remains on a version without a value. The invariant is that
such a stamp is owed a deletion: some stamping caller has yet to read the value again, or some
purging caller has yet to delete the stamp.
-/

namespace Mvcc

/-- The value of a version is there, or nothing of the version is. -/
def Partition.Whole (p : Partition) (row : Bytes) (writer : TxnId) : Prop :=
  p.hasVersion row writer = true ∨
    p.hasVersion row writer = false ∧ p.cell? (Version.key row writer) Version.stampColumn = none

/-! ## Single operations -/

namespace VersionTask

/-- The tasks that may follow an operation, by whether the value is present. -/
def after (present : Bool) : VersionTask → Option VersionTask
  | .probe => if present then some .mark else none
  | .mark => some .reprobe
  | .reprobe => if present then none else some .unmark
  | .dropValue => some .dropStamp
  | .unmark | .dropStamp => none

theorem after_ne_dropValue (present : Bool) (task : VersionTask) :
    task.after present ≠ some .dropValue := by
  cases task <;> cases present <;> decide

theorem drops_after_iff {present : Bool} {task task' : VersionTask}
    (h : task.after present = some task') :
    (task' = .dropValue ∨ task' = .dropStamp) ↔ task = .dropValue ∨ task = .dropStamp := by
  cases task <;> cases present <;> cases h <;> decide

variable {row : Bytes} {writer : TxnId} {stamp : Stamp} {p p' : Partition} {task : VersionTask}
  {next : Option VersionTask}

/-- An operation takes the value away, puts a stamp in place, takes one away or changes nothing. -/
theorem step_spec (h : task.step (Version.key row writer) stamp p = .ok (p', next)) :
    next = task.after (p.hasVersion row writer) ∧
      (p'.cell? (Version.key row writer) Version.dataColumn = if task = .dropValue then none
        else p.cell? (Version.key row writer) Version.dataColumn) ∧
      p'.cell? (Version.key row writer) Version.stampColumn =
        if task = .mark then some stamp.encode
        else if task = .unmark ∨ task = .dropStamp then none
        else p.cell? (Version.key row writer) Version.stampColumn := by
  have hne := Partition.data_ne_stamp
  cases task <;> simp only [step, Except.bind_eq_ok_iff] at h
  all_goals
    obtain ⟨value, hserve, hresult⟩ := h
    cases hresult
    obtain ⟨-, rfl⟩ := Partition.serve_eq_ok_iff.1 hserve
    refine ⟨rfl, ?_⟩
    simp [Partition.cell?_withCell_key, Partition.cell?_withoutCell_key, hne, hne.symm]

theorem hasVersion_step (h : task.step (Version.key row writer) stamp p = .ok (p', next)) :
    p'.hasVersion row writer = (task ≠ .dropValue && p.hasVersion row writer) := by
  rw [Partition.hasVersion, (step_spec h).2.1]
  by_cases hdrop : task = .dropValue
  · simp [hdrop]
  · simp [hdrop, Partition.hasVersion]

end VersionTask

/-! ## Callers -/

namespace VersionCaller

def Fits (c : VersionCaller) : Prop :=
  ∀ task, c.next = some task →
    (c.call = .purge ↔ task = .dropValue ∨ task = .dropStamp)

theorem Fits.step {row : Bytes} {writer : TxnId} {stamp : Stamp} {p p' : Partition}
    {call : VersionCall} {task : VersionTask} {next : Option VersionTask}
    (h : Fits ⟨call, some task, none⟩)
    (hstep : task.step (Version.key row writer) stamp p = .ok (p', next)) :
    Fits ⟨call, next, none⟩ := by
  intro task' htask'
  rw [VersionTask.drops_after_iff ((VersionTask.step_spec hstep).1.symm.trans htask')]
  exact h task rfl

theorem fits_caller (call : VersionCall) : call.caller.Fits := by
  intro task htask
  cases call <;> cases htask <;> simp [VersionCall.caller, VersionCall.first]

/-- A caller took the value away, if there was one. -/
def HasDropped (c : VersionCaller) : Prop := c.call = .purge ∧ c.next ≠ some .dropValue

/-- A caller is about to remove the stamp unless the value is present. -/
def Owes (c : VersionCaller) : Prop :=
  c.next = some .reprobe ∨ c.next = some .unmark ∨ c.next = some .dropStamp

def Idle (c : VersionCaller) : Prop := c.next = some .probe ∨ c.next = none

end VersionCaller

namespace VersionRace

variable {row : Bytes} {writer : TxnId} {start : Partition} {race race' : VersionRace}

theorem forall_mem_middle {P : VersionCaller → Prop} {front back : List VersionCaller}
    {c : VersionCaller} :
    (∀ c' ∈ front ++ c :: back, P c') ↔ P c ∧ ∀ c' ∈ front ++ back, P c' := by
  simp only [List.forall_mem_append, List.forall_mem_cons]
  exact and_left_comm

/-- The invariant since the start: the caller that removed the value, the callers that may have
written a stamp, and the caller that is about to remove it. -/
structure Orderly (row : Bytes) (writer : TxnId) (start : Partition) (race : VersionRace) :
    Prop where
  fits : ∀ c ∈ race.callers, c.Fits
  dropped : ∀ c ∈ race.callers, c.HasDropped → race.region.hasVersion row writer = false
  untouched : (∀ c ∈ race.callers, ¬ c.HasDropped) →
    race.region.cell? (Version.key row writer) Version.dataColumn =
      start.cell? (Version.key row writer) Version.dataColumn
  owed : race.region.hasVersion row writer = false →
    race.region.cell? (Version.key row writer) Version.stampColumn = none ∨
      (∃ c ∈ race.callers, c.Owes) ∨
      start.hasVersion row writer = false ∧ ∀ c ∈ race.callers, c.next = none → c.call ≠ .purge
  idle : start.hasVersion row writer = false → race.region.hasVersion row writer = false ∧
    ∀ c ∈ race.callers, c.call ≠ .purge → c.Idle
  kept : start.hasVersion row writer = false → (∀ c ∈ race.callers, c.call ≠ .purge) →
    race.region.cell? (Version.key row writer) Version.stampColumn =
      start.cell? (Version.key row writer) Version.stampColumn

theorem orderly_start (row : Bytes) (writer : TxnId) (start : Partition) :
    Orderly row writer start ⟨start, []⟩ where
  fits := nofun
  dropped := nofun
  untouched _ := rfl
  owed h := .inr (.inr ⟨h, nofun⟩)
  idle h := ⟨h, nofun⟩
  kept _ _ := rfl

theorem Orderly.of_same (h : Orderly row writer start race)
    (hcallers : race'.callers.map (fun c => (c.call, c.next)) =
      race.callers.map fun c => (c.call, c.next))
    (hdata : race'.region.cell? (Version.key row writer) Version.dataColumn =
      race.region.cell? (Version.key row writer) Version.dataColumn)
    (hstamp : race'.region.cell? (Version.key row writer) Version.stampColumn =
      race.region.cell? (Version.key row writer) Version.stampColumn) :
    Orderly row writer start race' := by
  have hall (P : VersionCall × Option VersionTask → Prop) :
      (∀ c ∈ race'.callers, P (c.call, c.next)) ↔ ∀ c ∈ race.callers, P (c.call, c.next) := by
    rw [← List.forall_mem_map, hcallers, List.forall_mem_map]
  have hversion : race'.region.hasVersion row writer = race.region.hasVersion row writer := by
    rw [Partition.hasVersion, hdata, Partition.hasVersion]
  let caller (pair : VersionCall × Option VersionTask) : VersionCaller := ⟨pair.1, pair.2, none⟩
  refine ⟨?fits, ?dropped, ?untouched, ?owed, ?idle, ?kept⟩
  case fits => exact (hall fun pair => (caller pair).Fits).2 h.fits
  case dropped =>
    rw [hversion]
    exact (hall fun pair => (caller pair).HasDropped → _).2 h.dropped
  case untouched =>
    rw [hdata]
    exact fun hnone => h.untouched ((hall fun pair => ¬ (caller pair).HasDropped).1 hnone)
  case owed =>
    rw [hversion, hstamp]
    intro habsent
    rcases h.owed habsent with hstamp | ⟨c, hc, howes⟩ | ⟨hstart, hpurge⟩
    · exact .inl hstamp
    · have hmem : (c.call, c.next) ∈ race'.callers.map fun c => (c.call, c.next) :=
        hcallers ▸ List.mem_map_of_mem hc
      obtain ⟨c', hc', hsame⟩ := List.mem_map.1 hmem
      obtain ⟨-, hnext⟩ := Prod.mk.inj hsame
      exact .inr (.inl ⟨c', hc', by rwa [VersionCaller.Owes, hnext]⟩)
    · exact .inr (.inr ⟨hstart, (hall fun pair => pair.2 = none → pair.1 ≠ .purge).2 hpurge⟩)
  case idle =>
    rw [hversion]
    exact fun hstart => ⟨(h.idle hstart).1,
      (hall fun pair => pair.1 ≠ .purge → (caller pair).Idle).2 (h.idle hstart).2⟩
  case kept =>
    rw [hstamp]
    exact fun hstart hnone => h.kept hstart ((hall fun pair => pair.1 ≠ .purge).1 hnone)

theorem Orderly.enter (h : Orderly row writer start race) (call : VersionCall) :
    Orderly row writer start { race with callers := race.callers ++ [call.caller] } := by
  have hall {P : VersionCaller → Prop} :
      (∀ c ∈ race.callers ++ [call.caller], P c) ↔ P call.caller ∧ ∀ c ∈ race.callers, P c := by
    rw [forall_mem_middle, List.append_nil]
  have hfresh : ¬ call.caller.HasDropped := by
    cases call <;> simp [VersionCaller.HasDropped, VersionCall.caller, VersionCall.first]
  refine ⟨?fits, ?dropped, ?untouched, ?owed, ?idle, ?kept⟩
  case fits => exact hall.2 ⟨VersionCaller.fits_caller call, h.fits⟩
  case dropped => exact hall.2 ⟨fun hdropped => absurd hdropped hfresh, h.dropped⟩
  case untouched => exact fun hnone => h.untouched (hall.1 hnone).2
  case owed =>
    intro habsent
    rcases h.owed habsent with hstamp | ⟨c, hc, howes⟩ | ⟨hstart, hpurge⟩
    · exact .inl hstamp
    · exact .inr (.inl ⟨c, List.mem_append_left _ hc, howes⟩)
    · exact .inr (.inr ⟨hstart, hall.2 ⟨nofun, hpurge⟩⟩)
  case idle =>
    intro hstart
    obtain ⟨habsent, hidle⟩ := h.idle hstart
    refine ⟨habsent, hall.2 ⟨fun hcall => ?_, hidle⟩⟩
    cases call with
    | stamp outcome => exact .inl rfl
    | purge => exact absurd rfl hcall
  case kept => exact fun hstart hnone => h.kept hstart (hall.1 hnone).2

theorem Orderly.advance {front back : List VersionCaller} {call : VersionCall}
    {task : VersionTask} {next : Option VersionTask} {region : Partition}
    (h : Orderly row writer start race)
    (hcallers : race.callers = front ++ ⟨call, some task, none⟩ :: back)
    (hstep : task.step (Version.key row writer) call.written race.region = .ok (region, next)) :
    Orderly row writer start ⟨region, front ++ ⟨call, next, none⟩ :: back⟩ := by
  obtain ⟨hfits, hdropped, huntouched, howed, hidle, hkept⟩ := h
  rw [hcallers, forall_mem_middle] at hfits hdropped
  rw [hcallers] at huntouched howed hidle hkept
  obtain ⟨hnext, hdata, hstamp⟩ := VersionTask.step_spec hstep
  have hversion := VersionTask.hasVersion_step hstep
  have hcall : call = .purge ↔ task = .dropValue ∨ task = .dropStamp := hfits.1 task rfl
  have hgone : race.region.hasVersion row writer = false →
      region.hasVersion row writer = false := fun habsent => by simp [hversion, habsent]
  have hlooks (hstart : start.hasVersion row writer = false) (hpurge : call ≠ .purge) :
      task = .probe := by
    have hc := (forall_mem_middle.1 (hidle hstart).2).1 hpurge
    simpa [VersionCaller.Idle] using hc
  refine ⟨?fits, ?dropped, ?untouched, ?owed, ?idle, ?kept⟩
  case fits => exact forall_mem_middle.2 ⟨hfits.1.step hstep, hfits.2⟩
  case dropped =>
    refine forall_mem_middle.2 ⟨fun hc => ?_, fun c hc hdrop => hgone (hdropped.2 c hc hdrop)⟩
    rcases hcall.1 hc.1 with rfl | rfl
    · simp [hversion]
    · exact hgone (hdropped.1 ⟨hc.1, by simp⟩)
  case untouched =>
    intro hnone
    obtain ⟨hc, hrest⟩ := forall_mem_middle.1 hnone
    have hkeeps : call ≠ .purge := fun hpurge =>
      hc ⟨hpurge, by rw [hnext]; exact VersionTask.after_ne_dropValue _ task⟩
    have htask : task ≠ .dropValue := fun hdrop => hkeeps (hcall.2 (.inl hdrop))
    rw [hdata, if_neg htask]
    exact huntouched (forall_mem_middle.2 ⟨fun hdrop => hkeeps hdrop.1, hrest⟩)
  case owed =>
    intro habsent
    have hself (howes : VersionCaller.Owes ⟨call, next, none⟩) :
        ∃ c ∈ front ++ ⟨call, next, none⟩ :: back, VersionCaller.Owes c :=
      ⟨_, List.mem_append_right _ List.mem_cons_self, howes⟩
    cases task with
    | mark => exact .inr (.inl (hself (.inl hnext)))
    | dropValue => exact .inr (.inl (hself (.inr (.inr hnext))))
    | unmark | dropStamp => exact .inl (by simpa using hstamp)
    | reprobe =>
      have hbefore : race.region.hasVersion row writer = false := by simpa [hversion] using habsent
      rw [hbefore] at hnext
      exact .inr (.inl (hself (.inr (.inl hnext))))
    | probe =>
      have hbefore : race.region.hasVersion row writer = false := by simpa [hversion] using habsent
      have hpurge : call ≠ .purge := by simpa using hcall
      rw [hbefore] at hnext
      rcases howed hbefore with hnostamp | ⟨c, hc, howes⟩ | ⟨hstart, hrest⟩
      · exact .inl (by simpa [hnostamp] using hstamp)
      · refine .inr (.inl ⟨c, ?_, howes⟩)
        rcases List.mem_append.1 hc with hfront | hback
        · exact List.mem_append_left _ hfront
        · rcases List.mem_cons.1 hback with rfl | hback
          · simp [VersionCaller.Owes] at howes
          · exact List.mem_append_right _ (List.mem_cons_of_mem _ hback)
      · exact .inr (.inr ⟨hstart,
          forall_mem_middle.2 ⟨fun _ => hpurge, (forall_mem_middle.1 hrest).2⟩⟩)
  case idle =>
    intro hstart
    obtain ⟨hbefore, hall⟩ := hidle hstart
    refine ⟨hgone hbefore, forall_mem_middle.2 ⟨fun hpurge => ?_, (forall_mem_middle.1 hall).2⟩⟩
    rw [hlooks hstart hpurge, hbefore] at hnext
    exact .inr hnext
  case kept =>
    intro hstart hnone
    obtain ⟨hpurge, hrest⟩ := forall_mem_middle.1 hnone
    rw [hstamp, hlooks hstart hpurge]
    simpa using hkept hstart (forall_mem_middle.2 ⟨hpurge, hrest⟩)

theorem proceed_cases (row : Bytes) (writer : TxnId) (race : VersionRace) (i : Nat) :
    proceed row writer race i = race ∨
      ∃ front call task back, race.callers = front ++ ⟨call, some task, none⟩ :: back ∧
        ((∃ region next,
          task.step (Version.key row writer) call.written race.region = .ok (region, next) ∧
            proceed row writer race i = ⟨region, front ++ ⟨call, next, none⟩ :: back⟩) ∨
          ∃ e, proceed row writer race i =
            { race with callers := front ++ ⟨call, some task, some e⟩ :: back }) := by
  unfold proceed
  split
  · rename_i call task hcaller
    obtain ⟨hi, hcaller⟩ := List.getElem?_eq_some_iff.1 hcaller
    have hset (c : VersionCaller) : race.callers.set i c =
        race.callers.take i ++ c :: race.callers.drop (i + 1) := by
      rw [List.set_eq_take_append_cons_drop, if_pos hi]
    have hself := hset race.callers[i]
    rw [List.set_getElem_self, hcaller] at hself
    refine .inr ⟨_, call, task, _, hself, ?_⟩
    cases hstep : task.step (Version.key row writer) call.written race.region with
    | ok result => exact .inl ⟨result.1, result.2, rfl, by simp only [hset]⟩
    | error e => exact .inr ⟨e, by simp only [hset]⟩
  · exact .inl rfl

theorem Orderly.step (h : Orderly row writer start race) (event : Event) :
    Orderly row writer start (step row writer race event) := by
  cases event with
  | enter call => exact h.enter call
  | proceed i =>
    rcases proceed_cases row writer race i with hidle | ⟨front, call, task, back, hcallers, hturn⟩
    · rwa [VersionRace.step, hidle]
    · rw [VersionRace.step]
      rcases hturn with ⟨region, next, hstep, hrace⟩ | ⟨e, hrace⟩
      · rw [hrace]
        exact h.advance hcallers hstep
      · rw [hrace]
        exact h.of_same (by simp [hcallers]) rfl rfl
  | meanwhile region =>
    simp only [VersionRace.step]
    split
    · rename_i halone
      simp only [leftAlone, Bool.and_eq_true, decide_eq_true_eq] at halone
      exact h.of_same rfl halone.1 halone.2
    · exact h

theorem Orderly.run (h : Orderly row writer start race) (events : List Event) :
    Orderly row writer start (run row writer race events) := by
  induction events generalizing race with
  | nil => exact h
  | cons event events ih => exact ih (h.step event)

/-- Once all calls are done, nothing is left of a version that was purged. -/
theorem Orderly.gone (h : Orderly row writer start race) (hdone : ∀ c ∈ race.callers, c.next = none)
    (hpurge : ∃ c ∈ race.callers, c.call = .purge) :
    race.region.hasVersion row writer = false ∧
      race.region.cell? (Version.key row writer) Version.stampColumn = none := by
  obtain ⟨c, hc, hcall⟩ := hpurge
  have habsent := h.dropped c hc ⟨hcall, by simp [hdone c hc]⟩
  refine ⟨habsent, ?_⟩
  rcases h.owed habsent with hstamp | ⟨c', hc', howes⟩ | ⟨-, hnone⟩
  · exact hstamp
  · simp [VersionCaller.Owes, hdone c' hc'] at howes
  · exact absurd hcall (hnone c hc (hdone c hc))

/-- Any number of callers stamp and purge a version, with their operations interleaved and other
cells changed in between. Once all calls are done, the version is whole, that is, has its value or
no cell at all, exactly if it was whole before or was purged. Its value is unchanged without a
purge, and removed with one. -/
theorem whole_when_done (region : Partition) (row : Bytes) (writer : TxnId) (events : List Event)
    (hdone : ∀ c ∈ (run row writer ⟨region, []⟩ events).callers, c.next = none) :
    let race := run row writer ⟨region, []⟩ events
    (race.region.Whole row writer ↔
      region.Whole row writer ∨ ∃ c ∈ race.callers, c.call = .purge) ∧
    ((∀ c ∈ race.callers, c.call ≠ .purge) →
      race.region.cell? (Version.key row writer) Version.dataColumn =
        region.cell? (Version.key row writer) Version.dataColumn) ∧
    ((∃ c ∈ race.callers, c.call = .purge) →
      race.region.cell? (Version.key row writer) Version.dataColumn = none ∧
        race.region.cell? (Version.key row writer) Version.stampColumn = none) := by
  intro race
  have h : Orderly row writer region race := (orderly_start row writer region).run events
  have huntouched (hnone : ∀ c ∈ race.callers, c.call ≠ .purge) :
      race.region.cell? (Version.key row writer) Version.dataColumn =
        region.cell? (Version.key row writer) Version.dataColumn :=
    h.untouched fun c hc hdropped => hnone c hc hdropped.1
  refine ⟨?whole, huntouched, ?purged⟩
  case whole =>
    by_cases hpurge : ∃ c ∈ race.callers, c.call = .purge
    · exact iff_of_true (.inr (h.gone hdone hpurge)) (.inr hpurge)
    · have hnone : ∀ c ∈ race.callers, c.call ≠ .purge := fun c hc hcall => hpurge ⟨c, hc, hcall⟩
      have hversion : race.region.hasVersion row writer = region.hasVersion row writer := by
        rw [Partition.hasVersion, huntouched hnone, Partition.hasVersion]
      rw [or_iff_left hpurge, Partition.Whole, Partition.Whole, hversion]
      refine or_congr_right (and_congr_right fun habsent => ?_)
      rw [h.kept habsent hnone]
  case purged =>
    intro hpurge
    obtain ⟨habsent, hstamp⟩ := h.gone hdone hpurge
    exact ⟨by simpa [Partition.hasVersion] using habsent, hstamp⟩

/-- A version is stamped twice and purged twice. The first purge begins between the probe of one
caller and its stamp. -/
theorem whole_after_purges :
    let region := (Partition.new "accounts").withCell (Version.key [1] 1) Version.dataColumn
      (Version.encodeValue (some [97]))
    let race := run [1] 1 ⟨region, []⟩
      [.enter (.stamp (.committed 2)), .enter .purge, .proceed 0, .proceed 1, .proceed 0,
        .enter .purge, .proceed 2, .proceed 1, .enter (.stamp .rolledBack), .proceed 3, .proceed 0,
        .proceed 0, .proceed 2]
    race.callers.map (·.call) = [.stamp (.committed 2), .purge, .purge, .stamp .rolledBack] ∧
      race.region.Whole [1] 1 := by
  intro region race
  have hdone : ∀ c ∈ race.callers, c.next = none := by decide +kernel
  have hpurge : ∃ c ∈ race.callers, c.call = .purge := by decide +kernel
  exact ⟨by decide +kernel, (whole_when_done region [1] 1 _ hdone).1.2 (.inr hpurge)⟩

end VersionRace

end Mvcc
