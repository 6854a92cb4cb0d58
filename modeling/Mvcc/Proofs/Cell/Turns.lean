import Mvcc.Proofs.Cell.Race

/-!
# Sequential callers

A caller that is not interrupted does what the direct call does, for stamps and for purges. The
alternation of a stamp and a purge is a run of two callers.
-/

namespace Mvcc

namespace VersionRace

variable {row : Bytes} {writer : TxnId} {race : VersionRace} {i j : Nat}
  {call call' : VersionCall} {next other : Option VersionTask} {task : VersionTask}
  {stamp : Stamp} {p p' : Partition} {fuel : Nat}

/-- A caller of the given call with its next task. -/
structure Waits (stamp : Stamp) (race : VersionRace) (i : Nat) (call : VersionCall)
    (next : Option VersionTask) : Prop where
  caller : race.callers[i]? = some ⟨call, next, none⟩
  fits : VersionCaller.Fits ⟨call, next, none⟩
  call : call = .stamp stamp ∨ call = .purge

theorem Waits.step_written (h : Waits stamp race i call (some task)) (p : Partition) :
    task.step (Version.key row writer) call.written p =
      task.step (Version.key row writer) stamp p := by
  rcases h.call with rfl | rfl
  · rfl
  · rcases (h.fits task rfl).1 rfl with rfl | rfl <;> rfl

theorem Waits.proceed (h : Waits stamp race i call (some task))
    (hstep : task.step (Version.key row writer) stamp race.region = .ok (p, next)) :
    VersionRace.step row writer race (.proceed i) =
        ⟨p, race.callers.set i ⟨call, next, none⟩⟩ ∧
      Waits stamp ⟨p, race.callers.set i ⟨call, next, none⟩⟩ i call next := by
  obtain ⟨hi, -⟩ := List.getElem?_eq_some_iff.1 h.caller
  refine ⟨?_, List.getElem?_set_self hi, h.fits.step hstep, h.call⟩
  rw [VersionRace.step, VersionRace.proceed, h.caller]
  simp only [(h.step_written race.region).trans hstep]

theorem Waits.of_ne {c : VersionCaller} (h : Waits stamp race j call' other) (hij : i ≠ j)
    (p : Partition) : Waits stamp ⟨p, race.callers.set i c⟩ j call' other :=
  ⟨(List.getElem?_set_ne hij).trans h.caller, h.fits, h.call⟩

theorem Waits.set_self (h : Waits stamp race i call next) :
    race.callers.set i ⟨call, next, none⟩ = race.callers := by
  obtain ⟨hi, hself⟩ := List.getElem?_eq_some_iff.1 h.caller
  rw [← hself, List.set_getElem_self]

theorem Waits.run_idle (h : Waits stamp race i call none) (turns : Nat) :
    run row writer race (List.replicate turns (.proceed i)) =
      ⟨race.region, race.callers.set i ⟨call, none, none⟩⟩ := by
  rw [h.set_self]
  induction turns with
  | zero => rfl
  | succ turns ih =>
    have hidle : VersionRace.proceed row writer race i = race := by
      simp [VersionRace.proceed, h.caller]
    rw [List.replicate_succ, run, List.foldl_cons, VersionRace.step, hidle]
    exact ih

theorem remaining_step (h : task.step (Version.key row writer) stamp p = .ok (p', next)) :
    VersionTask.remaining next < VersionTask.remaining (some task) := by
  rw [(VersionTask.step_spec h).1]
  cases task <;> cases p.hasVersion row writer <;> decide

/-- A caller that has all turns for itself does what its call does. -/
theorem Waits.run_alone (h : Waits stamp race i call next)
    (hfuel : VersionTask.remaining next ≤ fuel)
    (hrun : VersionTask.runFor (Version.key row writer) stamp fuel next race.region = .ok p) :
    run row writer race (List.replicate fuel (.proceed i)) =
      ⟨p, race.callers.set i ⟨call, none, none⟩⟩ := by
  induction fuel generalizing race next with
  | zero =>
    cases next with
    | none =>
      cases hrun
      exact h.run_idle 0
    | some task => cases task <;> cases hfuel
  | succ fuel ih =>
    cases next with
    | none =>
      cases hrun
      exact h.run_idle (fuel + 1)
    | some task =>
      obtain ⟨⟨region, after⟩, hstep, hrest⟩ := Except.bind_eq_ok_iff.1 hrun
      obtain ⟨hturn, hwaits⟩ := h.proceed hstep
      have hafter := remaining_step hstep
      have hdone := ih hwaits (by omega) hrest
      rw [List.set_set] at hdone
      rwa [List.replicate_succ, run, List.foldl_cons, hturn]

theorem Waits.run_alternate (h : Waits stamp race i call next)
    (h' : Waits stamp race j call' other) (hij : i ≠ j)
    (hfuel : VersionTask.remaining next + VersionTask.remaining other ≤ fuel)
    (hrun : VersionTask.alternate (Version.key row writer) stamp fuel next other race.region =
      .ok p) :
    ∃ events, run row writer race events =
      ⟨p, (race.callers.set i ⟨call, none, none⟩).set j ⟨call', none, none⟩⟩ := by
  induction fuel generalizing race i j call call' next other with
  | zero =>
    cases next with
    | some task => cases task <;> simp [VersionTask.remaining] at hfuel
    | none =>
      have hother : VersionTask.runFor (Version.key row writer) stamp 0 other race.region =
        .ok p := hrun
      rw [h.set_self]
      exact ⟨_, h'.run_alone ((Nat.le_add_left ..).trans hfuel) hother⟩
  | succ fuel ih =>
    cases next with
    | none =>
      rw [h.set_self]
      exact ⟨_, h'.run_alone (Nat.le_refl _) hrun⟩
    | some task =>
      obtain ⟨⟨region, after⟩, hstep, hrest⟩ := Except.bind_eq_ok_iff.1 hrun
      obtain ⟨hturn, hwaits⟩ := h.proceed hstep
      have hafter := remaining_step hstep
      obtain ⟨events, hdone⟩ := ih (h'.of_ne hij region) hwaits hij.symm (by omega) hrest
      refine ⟨.proceed i :: events, ?_⟩
      rw [run, List.foldl_cons, hturn]
      rw [List.set_comm _ _ hij.symm, List.set_set] at hdone
      exact hdone

theorem Waits.run_both {region : Partition} (h : Waits stamp race i call next)
    (h' : Waits stamp race j call' other) (hij : i ≠ j)
    (hfirst : VersionTask.run (Version.key row writer) stamp next race.region = .ok region)
    (hsecond : VersionTask.run (Version.key row writer) stamp other region = .ok p) :
    ∃ events, run row writer race events =
      ⟨p, (race.callers.set i ⟨call, none, none⟩).set j ⟨call', none, none⟩⟩ := by
  have hdone := h.run_alone (Nat.le_refl _) hfirst
  have hwaits : Waits stamp ⟨region, race.callers.set i ⟨call, none, none⟩⟩ j call' other :=
    h'.of_ne hij region
  have hdone' := hwaits.run_alone (Nat.le_refl _) hsecond
  refine ⟨List.replicate (VersionTask.remaining next) (.proceed i) ++
    List.replicate (VersionTask.remaining other) (.proceed j), ?_⟩
  rw [run, List.foldl_append, ← run, ← run, hdone]
  exact hdone'

/-- `stampVersion` is the run of one caller without interleaving. -/
theorem run_stampVersion (h : p.stampVersion row writer stamp = .ok p') :
    run row writer ⟨p, []⟩ (.enter (.stamp stamp) :: List.replicate 4 (.proceed 0)) =
      ⟨p', [⟨.stamp stamp, none, none⟩]⟩ := by
  have hwaits : Waits stamp ⟨p, [(VersionCall.stamp stamp).caller]⟩ 0 (.stamp stamp)
      (some .probe) := ⟨rfl, VersionCaller.fits_caller (.stamp stamp), .inl rfl⟩
  exact hwaits.run_alone (Nat.le_refl 4) h

theorem run_purgeVersion (h : p.purgeVersion row writer = .ok p') :
    run row writer ⟨p, []⟩ (.enter .purge :: List.replicate 2 (.proceed 0)) =
      ⟨p', [⟨.purge, none, none⟩]⟩ := by
  have hwaits : Waits .rolledBack ⟨p, [VersionCall.purge.caller]⟩ 0 .purge (some .dropValue) :=
    ⟨rfl, VersionCaller.fits_caller .purge, .inr rfl⟩
  exact hwaits.run_alone (Nat.le_refl 2) h

/-- `raceVersion` is an interleaved run of two callers. -/
theorem run_raceVersion {stampFirst : Bool}
    (h : p.raceVersion row writer stamp stampFirst = .ok p') :
    ∃ events, run row writer ⟨p, [(VersionCall.stamp stamp).caller, VersionCall.purge.caller]⟩
      events = ⟨p', [⟨.stamp stamp, none, none⟩, ⟨.purge, none, none⟩]⟩ := by
  let race : VersionRace := ⟨p, [(VersionCall.stamp stamp).caller, VersionCall.purge.caller]⟩
  have hstamp : Waits stamp race 0 (.stamp stamp) (some .probe) :=
    ⟨rfl, VersionCaller.fits_caller (.stamp stamp), .inl rfl⟩
  have hpurge : Waits stamp race 1 .purge (some .dropValue) :=
    ⟨rfl, VersionCaller.fits_caller .purge, .inr rfl⟩
  have hboth : ∃ events, run row writer race events =
      ⟨p', (race.callers.set 0 ⟨.stamp stamp, none, none⟩).set 1 ⟨.purge, none, none⟩⟩ := by
    cases hyielding : p.yielding with
    | true =>
      cases stampFirst with
      | true =>
        simp only [Partition.raceVersion, hyielding, if_true] at h
        exact hstamp.run_alternate hpurge (by decide) (Nat.le_refl 6) h
      | false =>
        simp only [Partition.raceVersion, hyielding, if_true] at h
        rw [List.set_comm _ _ (by decide)]
        exact hpurge.run_alternate hstamp (by decide) (Nat.le_refl 6) h
    | false =>
      cases stampFirst with
      | true =>
        have hturns : (VersionTask.run (Version.key row writer) stamp (some .probe) p >>=
            VersionTask.run (Version.key row writer) stamp (some .dropValue)) = .ok p' := by
          simpa [Partition.raceVersion, hyielding] using h
        obtain ⟨region, hfirst, hsecond⟩ := Except.bind_eq_ok_iff.1 hturns
        exact hstamp.run_both hpurge (by decide) hfirst hsecond
      | false =>
        have hturns : (VersionTask.run (Version.key row writer) stamp (some .dropValue) p >>=
            VersionTask.run (Version.key row writer) stamp (some .probe)) = .ok p' := by
          simpa [Partition.raceVersion, hyielding] using h
        obtain ⟨region, hfirst, hsecond⟩ := Except.bind_eq_ok_iff.1 hturns
        rw [List.set_comm _ _ (by decide)]
        exact hpurge.run_both hstamp (by decide) hfirst hsecond
  exact hboth

/-- Stamping and purging a version concurrently removes both of its cells. -/
theorem gone_of_raceVersion {stampFirst : Bool}
    (h : p.raceVersion row writer stamp stampFirst = .ok p') :
    p'.hasVersion row writer = false ∧
      p'.cell? (Version.key row writer) Version.stampColumn = none := by
  obtain ⟨events, hrun⟩ := run_raceVersion h
  have hentered : Orderly row writer p
      ⟨p, [(VersionCall.stamp stamp).caller, VersionCall.purge.caller]⟩ :=
    ((orderly_start row writer p).enter (.stamp stamp)).enter .purge
  have hend := hentered.run events
  rw [hrun] at hend
  exact hend.gone (by simp) ⟨⟨.purge, none, none⟩, by simp, rfl⟩

end VersionRace

end Mvcc
