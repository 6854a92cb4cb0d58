import Mvcc.Proofs.Service.Run

/-!
# No lost updates

Of two transactions that wrote the same row, one had committed when the other began, unless one of
them rolled back. In particular, two that were active at the same time never both commit.
-/

namespace Mvcc

def Txn.CommittedBy (txn : Txn) (time : Timestamp) : Prop :=
  txn.state = .committed ∧ ∃ commit, txn.commitTime = some commit ∧ commit ≤ time

namespace World

variable {w w' : World} {journal : List Entry} {a b : Entry}

theorem Sound.outcome?_ne_rolledBack (h : w.Sound) {id : TxnId} {txn : Txn}
    (hstanding : w.register.standing? id = some txn) (hstands : txn.state ≠ .rolledBack) :
    w.register.outcome? id ≠ some .rolledBack := by
  rw [h.plain.outcome?_eq hstanding]
  cases hstate : txn.state with
  | active => simp
  | committed => simp
  | rolledBack => exact absurd hstate hstands

/-- A writer that stands and ended before another began had committed by then. -/
theorem Sound.committedBy_of_endedBefore (h : w.Sound) {id : TxnId} {txn : Txn}
    (hstanding : w.register.standing? id = some txn) (hstands : txn.state ≠ .rolledBack)
    {time : Timestamp} (hends : w.EndedBefore id time) : txn.CommittedBy time := by
  rcases hends with hrolledBack | ⟨commit, hcommit, hle⟩
  · exact absurd hrolledBack (h.outcome?_ne_rolledBack hstanding hstands)
  · obtain ⟨stored, hstored, hstate, htime⟩ := h.plain.outcome?_eq_committed_iff.1 hcommit
    obtain ⟨_, hstored', rfl⟩ := Register.standing?_eq_some_iff.1 hstanding
    cases hstored.symm.trans hstored'
    exact ⟨Register.current_committed_iff.2 hstate, commit, htime, hle⟩

/-- Of two writers of one row that did not roll back, one had committed when the other began. -/
theorem Sound.committedBy_or (h : w.Sound) (hreflects : w.Reflects journal) (ha : a ∈ journal)
    (hb : b ∈ journal) (htable : a.table = b.table) (hrow : a.row = b.row)
    (hne : a.writer ≠ b.writer) {first second : Txn}
    (hfirst : w.register.standing? a.writer = some first) (hstands : first.state ≠ .rolledBack)
    (hsecond : w.register.standing? b.writer = some second)
    (hstands' : second.state ≠ .rolledBack) :
    first.CommittedBy b.writer ∨ second.CommittedBy a.writer := by
  have hvalue : (w.values a.table a.row a.writer).isSome := by
    rw [hreflects.values_eq (h.outcome?_ne_rolledBack hfirst hstands)]
    exact isSome_lastWrite?_iff.2 ⟨a, ha, rfl, rfl, rfl⟩
  have hvalue' : (w.values a.table a.row b.writer).isSome := by
    rw [hreflects.values_eq (h.outcome?_ne_rolledBack hsecond hstands')]
    exact isSome_lastWrite?_iff.2 ⟨b, hb, htable, hrow, rfl⟩
  exact (h.apart hvalue hvalue' hne).imp (h.committedBy_of_endedBefore hfirst hstands)
    (h.committedBy_of_endedBefore hsecond hstands')

theorem Sound.beginTime_eq (h : w.Sound) {id : TxnId} {txn : Txn}
    (hstanding : w.register.standing? id = some txn) : txn.beginTime = id := by
  obtain ⟨stored, hstored, rfl⟩ := Register.standing?_eq_some_iff.1 hstanding
  exact (h.plain.sound.known hstored).2.1

/-- A transaction that is still active commits after every known transaction has begun. -/
theorem Sound.not_committedBy (h : w.Sound)
    (hproceeds : w.register.Proceeds (· = none) w'.register) {id other : TxnId} {txn found : Txn}
    (hactive : w.register.standing? id = some txn) (hstate : txn.state = .active)
    (hother : w.register.standing? other = some found) {later : Txn}
    (hlater : w'.register.standing? id = some later) : ¬ later.CommittedBy other := by
  rintro ⟨hcommitted, commit, hcommit, hle⟩
  obtain ⟨stored, hstored, -⟩ := Register.standing?_eq_some_iff.1 hactive
  obtain ⟨stored', hstored', -⟩ := Register.standing?_eq_some_iff.1 hother
  have hnone : w.register.outcome? id = none := by
    rw [h.plain.outcome?_eq hactive, hstate]
  have houtcome : w'.register.outcome? id = some (.committed commit) := by
    rw [(h.plain.proceeds hproceeds).outcome?_eq hlater, hcommitted, hcommit]
    rfl
  have hlt := h.plain.latest_lt hproceeds (Option.isSome_iff_exists.2 ⟨stored, hstored⟩) hnone
    houtcome
  have hknown := (h.plain.sound.known hstored').2.2
  exact absurd hlt (UInt64.not_lt.2 (UInt64.le_trans hle hknown))

end World

namespace Environment

variable {env : Environment} {ops : List Operation}

/-- In every run whose clock does not go back, two transactions that wrote the same row do not
overlap unless one of them rolled back; and two that were active at the same time never both
commit. -/
theorem writers_disjoint (settings : ServiceSettings) (mark : Mark) (now : UInt64)
    (env : Environment) (ops : List Operation) (hstart : start settings mark now = .ok env)
    (hforward : Forward now ops) (hample : Ample env ops) (a b : Entry) (ha : a ∈ journal env ops)
    (hb : b ∈ journal env ops) (htable : a.table = b.table) (hrow : a.row = b.row)
    (hne : a.writer ≠ b.writer) :
    ∃ first second, (run env ops).standing? a.writer = some first ∧
      (run env ops).standing? b.writer = some second ∧
      (first.state ≠ .rolledBack → second.state ≠ .rolledBack →
        first.CommittedBy second.beginTime ∨ second.CommittedBy first.beginTime) ∧
      ∀ before later early early', ops = before ++ later →
        (run env before).standing? a.writer = some early → early.state = .active →
        (run env before).standing? b.writer = some early' → early'.state = .active →
        ¬ (first.state = .committed ∧ second.state = .committed) := by
  obtain ⟨hend, hjournal⟩ := started_run_whole hstart hforward hample
  obtain ⟨first, hfirst⟩ := hjournal.exists_standing hend.world ha
  obtain ⟨second, hsecond⟩ := hjournal.exists_standing hend.world hb
  have hapart : first.state ≠ .rolledBack → second.state ≠ .rolledBack →
      first.CommittedBy b.writer ∨ second.CommittedBy a.writer := fun hstands hstands' =>
    hend.world.committedBy_or hjournal ha hb htable hrow hne hfirst hstands hsecond hstands'
  refine ⟨first, second, hfirst, hsecond, ?_, ?_⟩
  · rw [hend.world.beginTime_eq hfirst, hend.world.beginTime_eq hsecond]
    exact hapart
  · rintro before later early early' rfl hearly hactive hearly' hactive' ⟨hcommitted, hcommitted'⟩
    obtain ⟨hmiddle, -, hforward', hsupplied'⟩ := started_run hstart hforward hample
    obtain ⟨-, hrest⟩ := run_steps_whole hmiddle hforward' hsupplied'
    rw [run_append] at hfirst hsecond
    have hproceeds := hrest.proceeds hmiddle.world
    rcases hapart (by simp [hcommitted]) (by simp [hcommitted']) with hby | hby
    · exact hmiddle.world.not_committedBy hproceeds hearly hactive hearly' hfirst hby
    · exact hmiddle.world.not_committedBy hproceeds hearly' hactive' hearly hsecond hby

/-- Two transactions that write one row, the second after the first committed. -/
def inSuccession : List Operation :=
  [.begin none none, .write 1 "accounts" [] [⟨.upsert, [1], [10]⟩], .commit 1, .begin none none,
    .write 3 "accounts" [] [⟨.upsert, [1], [20]⟩], .commit 3]

theorem writers_disjoint_inSuccession :
    start .standard (.memory (.startingAt 0)) 1000000 = .ok fromZero ∧
      ∃ first second, (run fromZero inSuccession).standing? 1 = some first ∧
        (run fromZero inSuccession).standing? 3 = some second ∧
        (first.state ≠ .rolledBack → second.state ≠ .rolledBack →
          first.CommittedBy second.beginTime ∨ second.CommittedBy first.beginTime) := by
  obtain ⟨first, second, hfirst, hsecond, hdisjoint, -⟩ :=
    writers_disjoint .standard (.memory (.startingAt 0)) 1000000 fromZero inSuccession rfl
      ⟨by decide, by decide, by decide, by decide, by decide, by decide, trivial⟩
      (.inl (by decide)) ⟨"accounts", [1], 1, some [10]⟩ ⟨"accounts", [1], 3, some [20]⟩
      (by decide) (by decide) rfl rfl (by decide)
  exact ⟨rfl, first, second, hfirst, hsecond, hdisjoint⟩

end Environment

end Mvcc
