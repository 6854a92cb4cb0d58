import Mvcc.Proofs.Snapshot.Holder
import Mvcc.Proofs.Snapshot.Tidying

/-!
# Compacting a row

Compaction works through the versions listed at its start. Its action on one version does not affect
the others, so the row afterwards is given version by version, and compacting it again changes
nothing.
-/

namespace Mvcc

open TxnM

/-! ## Single versions -/

namespace CompactionAction

/-- The cell of a version after an action. -/
def cell (action : CompactionAction) (written : Bool) (column : Bytes) (before : Option Bytes) :
    Option Bytes :=
  match action with
  | .keep => before
  | .settle stamp => if written = true ∧ column = Version.stampColumn then some stamp.encode
    else before
  | .purge => if column = Version.dataColumn ∨ column = Version.stampColumn then none else before

/-- The version after an action, none if it is purged. -/
def fate (action : CompactionAction) (version : Version) : Option Version :=
  match action with
  | .keep => some version
  | .settle stamp => some { version with stamp := some stamp }
  | .purge => none

theorem writer_of_fate {action : CompactionAction} {version found : Version}
    (h : action.fate version = some found) : found.writer = version.writer := by
  cases action <;> cases h <;> rfl

end CompactionAction

namespace Partition

variable {p : Partition} {row key column : Bytes} {writer : TxnId} {action : CompactionAction}
  {act : Version → CompactionAction} {version : Version} {versions : List Version}

def treated (p : Partition) (row : Bytes) (writer : TxnId) : CompactionAction → Partition
  | .keep => p
  | .settle stamp => p.stamped row writer stamp
  | .purge => p.purged row writer

theorem retouched_treated (p : Partition) (row : Bytes) (writer : TxnId)
    (action : CompactionAction) : p.Retouched (p.treated row writer action) := by
  cases action with
  | keep => exact .refl p
  | settle stamp => exact p.retouched_stamped row writer stamp
  | purge => exact p.retouched_purged row writer

theorem cell?_treated (p : Partition) (row : Bytes) (writer : TxnId) (action : CompactionAction)
    (key column : Bytes) :
    (p.treated row writer action).cell? key column =
      if key = Version.key row writer then
        action.cell (p.hasVersion row writer) column (p.cell? key column)
      else p.cell? key column := by
  cases action with
  | keep => exact (ite_self _).symm
  | settle stamp =>
    simp only [treated, CompactionAction.cell, stamped]
    by_cases hkey : key = Version.key row writer <;>
      cases p.hasVersion row writer <;> simp [cell?_withCell, hkey]
  | purge =>
    simp only [treated, CompactionAction.cell, purged, cell?_withoutCell]
    by_cases hkey : key = Version.key row writer
    · by_cases hdata : column = Version.dataColumn <;>
        by_cases hstamp : column = Version.stampColumn <;> simp [hkey, hdata, hstamp]
    · simp [hkey]

def compacted (p : Partition) (row : Bytes) (act : Version → CompactionAction)
    (versions : List Version) : Partition :=
  versions.foldl (fun p version => p.treated row version.writer (act version)) p

theorem retouched_compacted (p : Partition) (row : Bytes) (act : Version → CompactionAction)
    (versions : List Version) : p.Retouched (p.compacted row act versions) := by
  induction versions generalizing p with
  | nil => exact .refl p
  | cons version older ih =>
    exact (p.retouched_treated row version.writer (act version)).trans (ih _)

theorem cell?_compacted_of_ne
    (h : ∀ version ∈ versions, key ≠ Version.key row version.writer) :
    (p.compacted row act versions).cell? key column = p.cell? key column := by
  induction versions generalizing p with
  | nil => rfl
  | cons version older ih =>
    obtain ⟨hne, holder⟩ := List.forall_mem_cons.1 h
    rw [compacted, List.foldl_cons, ← compacted, ih holder, cell?_treated, if_neg hne]

/-- The cells of a version after compaction depend on its own action only. -/
theorem cell?_compacted_of_mem (hapart : versions.Pairwise fun a b => a.writer ≠ b.writer)
    (h : version ∈ versions) :
    (p.compacted row act versions).cell? (Version.key row version.writer) column =
      (act version).cell (p.hasVersion row version.writer) column
        (p.cell? (Version.key row version.writer) column) := by
  induction versions generalizing p with
  | nil => cases h
  | cons first older ih =>
    obtain ⟨hfirst, holder⟩ := List.pairwise_cons.1 hapart
    rw [compacted, List.foldl_cons, ← compacted]
    cases h with
    | head =>
      have hothers : ∀ other ∈ older,
          Version.key row version.writer ≠ Version.key row other.writer :=
        fun other hother hsame => hfirst other hother (Version.key_inj.1 hsame).2
      rw [cell?_compacted_of_ne hothers, cell?_treated, if_pos rfl]
    | tail _ hmem =>
      have hne : Version.key row version.writer ≠ Version.key row first.writer :=
        fun hsame => hfirst version hmem (Version.key_inj.1 hsame).2.symm
      rw [ih holder hmem, hasVersion, cell?_treated, if_neg hne, cell?_treated, if_neg hne,
        hasVersion]

/-! ## Listable rows -/

theorem legible_treated (h : p.LegibleAt row) (writer : TxnId) (action : CompactionAction) :
    (p.treated row writer action).LegibleAt row := by
  cases action with
  | keep => exact h
  | settle stamp =>
    simp only [treated, stamped]
    split
    · exact (shows_withStamp p row writer stamp).legible h
    · exact h
  | purge => exact (shows_purged p row writer).legible h

theorem legible_compacted (h : p.LegibleAt row) (act : Version → CompactionAction)
    (versions : List Version) : (p.compacted row act versions).LegibleAt row := by
  induction versions generalizing p with
  | nil => exact h
  | cons version older ih => exact ih (legible_treated h version.writer (act version))

theorem hasVersion_of_version? (h : p.version? row writer = some version) :
    p.hasVersion row writer = true := by
  obtain ⟨-, hvalue, -⟩ := version?_eq_some_iff.1 h
  obtain ⟨raw, hraw, -⟩ := Option.bind_eq_some_iff.1 hvalue
  rw [hasVersion, hraw]
  rfl

theorem version?_treated (h : p.version? row version.writer = some version)
    (action : CompactionAction) :
    (p.treated row version.writer action).version? row version.writer = action.fate version := by
  obtain ⟨-, hvalue, -⟩ := version?_eq_some_iff.1 h
  cases action with
  | keep => exact h
  | settle stamp =>
    have hshows := shows_withStamp p row version.writer stamp
    rw [treated, stamped, if_pos (hasVersion_of_version? h), version?, hshows.value?,
      hshows.stamp?, hvalue]
    simp [CompactionAction.fate]
  | purge =>
    rw [treated, version?, (shows_purged p row version.writer).value?]
    simp [CompactionAction.fate]

theorem version?_congr {q : Partition}
    (h : ∀ column, q.cell? (Version.key row writer) column =
      p.cell? (Version.key row writer) column) :
    q.version? row writer = p.version? row writer := by
  simp only [version?, value?, stamp?, h]

theorem version?_compacted_of_mem (hapart : versions.Pairwise fun a b => a.writer ≠ b.writer)
    (hmem : version ∈ versions) (h : p.version? row version.writer = some version) :
    (p.compacted row act versions).version? row version.writer = (act version).fate version := by
  rw [← version?_treated h]
  refine version?_congr fun column => ?_
  rw [cell?_compacted_of_mem hapart hmem, cell?_treated, if_pos rfl]

theorem version?_compacted_of_ne (h : ∀ version ∈ versions, version.writer ≠ writer) :
    (p.compacted row act versions).version? row writer = p.version? row writer :=
  version?_congr fun _ => cell?_compacted_of_ne fun version hversion hsame =>
    h version hversion (Version.key_inj.1 hsame).2.symm

theorem writers_apart (h : p.versions row = .ok versions) :
    versions.Pairwise fun a b => a.writer ≠ b.writer := by
  refine (versions_spec h).1.imp fun {newer older} hlt hsame => ?_
  rw [hsame] at hlt
  exact UInt64.lt_irrefl _ hlt

/-- After compaction a row lists its remaining versions, each after its action. -/
theorem versions_compacted (h : p.versions row = .ok versions)
    (act : Version → CompactionAction) :
    (p.compacted row act versions).versions row =
      .ok (versions.filterMap fun version => (act version).fate version) := by
  obtain ⟨hdescending, hmem⟩ := versions_spec h
  have hapart := writers_apart h
  have hstill : ∀ version ∈ versions, (p.compacted row act versions).version? row version.writer =
      (act version).fate version := fun version hversion =>
    version?_compacted_of_mem hapart hversion ((hmem version).1 hversion)
  refine versions_eq_of_mem_iff (legible_compacted (legibleAt_of_versions h) act versions)
    ((retouched_compacted ..).unavailable.trans (available_of_versions h)) ?_ fun found => ?_
  · rw [List.pairwise_filterMap]
    refine hdescending.imp fun hlt newer hnewer older holder => ?_
    rwa [CompactionAction.writer_of_fate hnewer, CompactionAction.writer_of_fate holder]
  · rw [List.mem_filterMap]
    constructor
    · rintro ⟨version, hversion, hfate⟩
      rw [CompactionAction.writer_of_fate hfate, hstill version hversion, hfate]
    · intro hfound
      by_cases hlisted : ∃ version ∈ versions, version.writer = found.writer
      · obtain ⟨version, hversion, hwriter⟩ := hlisted
        rw [← hwriter, hstill version hversion] at hfound
        exact ⟨version, hversion, hfound⟩
      · have hother : ∀ version ∈ versions, version.writer ≠ found.writer :=
          fun version hversion hwriter => hlisted ⟨version, hversion, hwriter⟩
        rw [version?_compacted_of_ne hother] at hfound
        exact absurd rfl (hother found ((hmem found).2 hfound))

end Partition

/-! ## The tally -/

namespace CompactionSummary

variable {act : Version → CompactionAction}

/-- The summary of the actions on some versions. -/
def counted (summary : CompactionSummary) (act : Version → CompactionAction)
    (versions : List Version) : CompactionSummary :=
  versions.foldl (fun summary version => summary.add (act version)) summary

theorem counted_total (summary : CompactionSummary) (act : Version → CompactionAction)
    (versions : List Version) :
    (summary.counted act versions).kept + (summary.counted act versions).stamped +
        (summary.counted act versions).purged =
      summary.kept + summary.stamped + summary.purged + versions.length := by
  induction versions generalizing summary with
  | nil => rfl
  | cons version older ih =>
    rw [counted, List.foldl_cons, ← counted, ih, List.length_cons]
    cases act version <;> simp only [add] <;> omega

theorem counted_left (summary : CompactionSummary) (act : Version → CompactionAction)
    (versions : List Version) :
    (summary.counted act versions).kept + (summary.counted act versions).stamped =
      summary.kept + summary.stamped +
        (versions.filterMap fun version => (act version).fate version).length := by
  induction versions generalizing summary with
  | nil => rfl
  | cons version older ih =>
    rw [counted, List.foldl_cons, ← counted, ih, List.filterMap_cons]
    cases hact : act version <;> simp only [add, CompactionAction.fate, List.length_cons] <;> omega

theorem counted_of_keep {versions : List Version} (summary : CompactionSummary)
    (h : ∀ version ∈ versions, act version = .keep) :
    summary.counted act versions = { summary with kept := summary.kept + versions.length } := by
  induction versions generalizing summary with
  | nil => rfl
  | cons version older ih =>
    obtain ⟨hkeep, holder⟩ := List.forall_mem_cons.1 h
    rw [counted, List.foldl_cons, ← counted, ih _ holder, hkeep, List.length_cons]
    simp only [add, Nat.add_assoc, Nat.add_comm 1]

end CompactionSummary

theorem Partition.compacted_of_keep {p : Partition} {row : Bytes}
    {act : Version → CompactionAction} {versions : List Version}
    (h : ∀ version ∈ versions, act version = .keep) : p.compacted row act versions = p := by
  induction versions with
  | nil => rfl
  | cons version older ih =>
    obtain ⟨hkeep, holder⟩ := List.forall_mem_cons.1 h
    rw [compacted, List.foldl_cons, ← compacted, hkeep]
    exact ih holder

/-! ## Actions on a version -/

section

variable {σ : Type} [Supplier σ] {s : σ} {version : Version}

namespace Version

/-- A version that is purged: it is stamped as rolled back, or it has no stamp and its writer is
effectively rolled back. -/
def Doomed (s : σ) (version : Version) : Prop :=
  version.stamp = some .rolledBack ∨
    version.stamp = none ∧ ∃ view, Supplier.Finds s version.writer view ∧
      view.effectiveState = .rolledBack

/-- An unstamped version whose writer is effectively committed at the given time. -/
def Owed (s : σ) (version : Version) (time : Timestamp) : Prop :=
  version.stamp = none ∧ ∃ view, Supplier.Finds s version.writer view ∧
    view.effectiveState = .committed ∧ view.effectiveCommitTime = some time

end Version

namespace CompactionAction

/-- The action on a version, from the look-ups of writers. -/
def due (answers : TxnId → Except TxnError View) (version : Version) : CompactionAction :=
  match version.stamp with
  | some .rolledBack => .purge
  | some (.committed _) => .keep
  | none =>
    match answers version.writer with
    | .ok view => .ofOutcome view.outcome
    | .error _ => .keep

theorem due_of_finds {view : View} (hstamp : version.stamp = none)
    (hview : Supplier.Finds s version.writer view) :
    due (Supplier.answers s) version = .ofOutcome view.outcome := by
  unfold due
  rw [hstamp, Supplier.answers_eq_ok_iff.2 hview]

theorem ofOutcome_eq_purge_iff {outcome : Option Stamp} :
    ofOutcome outcome = .purge ↔ outcome = some .rolledBack := by
  match outcome with
  | none | some .rolledBack | some (.committed time) => simp [ofOutcome]

theorem ofOutcome_eq_settle_iff {outcome : Option Stamp} {stamp : Stamp} :
    ofOutcome outcome = .settle stamp ↔
      ∃ time, outcome = some (.committed time) ∧ stamp = .committed time := by
  match outcome with
  | none | some .rolledBack => simp [ofOutcome]
  | some (.committed time) => simp [ofOutcome, eq_comm]

theorem due_eq_purge_iff
    (hfound : version.stamp = none → ∃ view, Supplier.Finds s version.writer view) :
    due (Supplier.answers s) version = .purge ↔ version.Doomed s := by
  match hstamp : version.stamp with
  | some .rolledBack => simp [due, hstamp, Version.Doomed]
  | some (.committed time) => simp [due, hstamp, Version.Doomed]
  | none =>
    obtain ⟨view, hview⟩ := hfound hstamp
    rw [due_of_finds hstamp hview, ofOutcome_eq_purge_iff, View.outcome_eq_rolledBack_iff,
      Version.Doomed, hstamp]
    constructor
    · exact fun hstate => .inr ⟨rfl, view, hview, hstate⟩
    · rintro (hrolledBack | ⟨-, found, hfinds, hstate⟩)
      · cases hrolledBack
      · rwa [hview.unique hfinds]

theorem due_eq_settle_iff
    (hfound : version.stamp = none → ∃ view, Supplier.Finds s version.writer view)
    {stamp : Stamp} :
    due (Supplier.answers s) version = .settle stamp ↔
      ∃ time, version.Owed s time ∧ stamp = .committed time := by
  match hstamp : version.stamp with
  | some .rolledBack => simp [due, hstamp, Version.Owed]
  | some (.committed time) => simp [due, hstamp, Version.Owed]
  | none =>
    obtain ⟨view, hview⟩ := hfound hstamp
    rw [due_of_finds hstamp hview, ofOutcome_eq_settle_iff]
    refine exists_congr fun time => and_congr_left fun _ => ?_
    rw [View.outcome_eq_committed_iff, Version.Owed]
    constructor
    · exact fun houtcome => ⟨hstamp, view, hview, houtcome⟩
    · rintro ⟨-, found, hfinds, houtcome⟩
      rwa [hview.unique hfinds]

theorem due_of_fate {found : Version}
    (h : (due (Supplier.answers s) version).fate version = some found) :
    due (Supplier.answers s) found = .keep ∧ (found.stamp = none → found = version) := by
  cases hdue : due (Supplier.answers s) version with
  | keep =>
    rw [hdue] at h
    cases h
    exact ⟨hdue, fun _ => rfl⟩
  | purge =>
    rw [hdue] at h
    cases h
  | settle stamp =>
    rw [hdue] at h
    cases h
    obtain ⟨time, rfl⟩ : ∃ time, stamp = .committed time := by
      unfold due at hdue
      split at hdue
      · cases hdue
      · cases hdue
      · split at hdue
        · obtain ⟨time, -, htime⟩ := ofOutcome_eq_settle_iff.1 hdue
          exact ⟨time, htime⟩
        · cases hdue
    exact ⟨rfl, nofun⟩

end CompactionAction

end

/-! ## Going through a row -/

namespace CellHolder

variable {σ : Type} [CellHolder σ] [Supplier σ] [SteadyCellHolder σ]
  {known : TxnId → Except TxnError (Option Txn)} {s₀ s : σ} {row : Bytes} {version : Version}
  {versions : List Version}

theorem classify_ends (hs₀ : Supplier.Steady known s₀) (hs : Supplier.Steady known s)
    (hfound : version.stamp = none → ∃ view, Supplier.Finds s₀ version.writer view) :
    Ends (classify version.writer version.stamp) s
      (fun action s' => action = .due (Supplier.answers s₀) version ∧ region s' = region s ∧
        Supplier.Steady known s') fun _ _ => False := by
  match hstamp : version.stamp with
  | some .rolledBack => exact ⟨by simp [CompactionAction.due, hstamp], rfl, hs⟩
  | some (.committed time) => exact ⟨by simp [CompactionAction.due, hstamp], rfl, hs⟩
  | none =>
    obtain ⟨view, hview⟩ := hfound hstamp
    rw [classify, ends_bind]
    refine ((hview.again hs₀ hs).and (resolve_region s version.writer)).mono ?_ fun _ _ h => h.1
    rintro found s' ⟨⟨rfl, hs'⟩, hregion⟩
    exact ⟨(CompactionAction.due_of_finds hstamp hview).symm, hregion, hs'⟩

theorem alter_ends (hs : Supplier.Steady known s)
    {change : Partition → Except StorageError Partition} {p : Partition}
    (hchange : change (region s) = .ok p) (hp : (region s).Retouched p) :
    Ends (alter change) s (fun _ s' => region s' = p ∧ Supplier.Steady known s')
      fun _ _ => False := by
  rw [Ends, alter, hchange]
  exact ⟨LawfulCellHolder.region_withRegion p s, SteadyCellHolder.steady_withRegion hs hp⟩

theorem apply_ends (hs : Supplier.Steady known s) (havailable : (region s).unavailable = false)
    (row : Bytes) (writer : TxnId) (action : CompactionAction) :
    Ends (apply row writer action) s
      (fun _ s' => region s' = (region s).treated row writer action ∧ Supplier.Steady known s')
      fun _ _ => False := by
  have hretouched := (region s).retouched_treated row writer action
  cases action with
  | keep => exact ⟨rfl, hs⟩
  | settle stamp =>
    exact alter_ends hs (Partition.stampVersion_eq_ok_iff.2 ⟨havailable, rfl⟩) hretouched
  | purge => exact alter_ends hs (Partition.purgeVersion_of_available havailable ..) hretouched

theorem compactVersions_ends (hs₀ : Supplier.Steady known s₀) (hs : Supplier.Steady known s)
    (havailable : (region s).unavailable = false) (versions : List Version)
    (hfound : ∀ version ∈ versions, version.stamp = none →
      ∃ view, Supplier.Finds s₀ version.writer view) (summary : CompactionSummary) :
    Ends (compactVersions row versions summary) s
      (fun found s' => found = summary.counted (.due (Supplier.answers s₀)) versions ∧
        region s' = (region s).compacted row (.due (Supplier.answers s₀)) versions ∧
        Supplier.Steady known s') fun _ _ => False := by
  induction versions generalizing s summary with
  | nil => exact ⟨rfl, rfl, hs⟩
  | cons version older ih =>
    obtain ⟨hfirst, holder⟩ := List.forall_mem_cons.1 hfound
    simp only [compactVersions, compactVersion, ends_bind, ends_pure]
    refine (classify_ends hs₀ hs hfirst).mono ?_ fun _ _ h => h
    rintro _ s₁ ⟨rfl, hregion₁, hs₁⟩
    refine (apply_ends hs₁ (hregion₁ ▸ havailable) row version.writer _).mono ?_ fun _ _ h => h
    rintro _ s₂ ⟨hregion₂, hs₂⟩
    rw [hregion₁] at hregion₂
    have havailable₂ : (region s₂).unavailable = false := by
      rw [hregion₂, (Partition.retouched_treated ..).unavailable, havailable]
    refine (ih hs₂ havailable₂ holder _).mono ?_ fun _ _ h => h
    rintro found s' ⟨hfound', hregion', hs'⟩
    exact ⟨hfound', hregion'.trans (by rw [hregion₂]; rfl), hs'⟩

theorem compactRow_ends (hs₀ : Supplier.Steady known s₀) (hs : Supplier.Steady known s)
    (hversions : (region s).versions row = .ok versions)
    (hfound : ∀ version ∈ versions, version.stamp = none →
      ∃ view, Supplier.Finds s₀ version.writer view) :
    Ends (compactRow row) s
      (fun found s' =>
        found = CompactionSummary.zero.counted (.due (Supplier.answers s₀)) versions ∧
        region s' = (region s).compacted row (.due (Supplier.answers s₀)) versions ∧
        Supplier.Steady known s') fun _ _ => False := by
  simp only [compactRow, ends_bind, ends_get, ends_ofExcept, hversions]
  exact compactVersions_ends hs₀ hs (Partition.available_of_versions hversions) versions hfound _

/-- The state of a row after its compaction. -/
structure Compacted (s : σ) (row : Bytes) (versions : List Version) (p p' : Partition) : Prop where
  gone_iff {version : Version} (h : version ∈ versions) :
    p'.hasVersion row version.writer = false ↔ version.Doomed s
  traceless {version : Version} (h : version ∈ versions) (hdoomed : version.Doomed s) :
    p'.cell? (Version.key row version.writer) Version.dataColumn = none ∧
      p'.cell? (Version.key row version.writer) Version.stampColumn = none
  settled {version : Version} {time : Timestamp} (h : version ∈ versions)
    (howed : version.Owed s time) : p'.Carries row version.writer (.committed time)
  /-- Only cells of dropped versions and missing stamps have changed. -/
  untouched {key column : Bytes}
    (h : ∀ version ∈ versions, key = Version.key row version.writer →
      (version.Doomed s → column ≠ Version.dataColumn ∧ column ≠ Version.stampColumn) ∧
        ∀ time, version.Owed s time → column ≠ Version.stampColumn) :
    p'.cell? key column = p.cell? key column
  name : p'.name = p.name
  unavailable : p'.unavailable = p.unavailable

omit [CellHolder σ] [SteadyCellHolder σ] in
theorem compacted_due {p : Partition} (hversions : p.versions row = .ok versions)
    (hfound : ∀ version ∈ versions, version.stamp = none →
      ∃ view, Supplier.Finds s version.writer view) :
    Compacted s row versions p (p.compacted row (.due (Supplier.answers s)) versions) := by
  have hretouched := p.retouched_compacted row (.due (Supplier.answers s)) versions
  have hversion {version : Version} (h : version ∈ versions) :
      p.hasVersion row version.writer = true :=
    Partition.hasVersion_of_version? (((Partition.versions_spec hversions).2 version).1 h)
  have hcell {version : Version} (h : version ∈ versions) (column : Bytes) :
      (p.compacted row (.due (Supplier.answers s)) versions).cell?
          (Version.key row version.writer) column =
        (CompactionAction.due (Supplier.answers s) version).cell true column
          (p.cell? (Version.key row version.writer) column) := by
    rw [Partition.cell?_compacted_of_mem (Partition.writers_apart hversions) h, hversion h]
  have htraceless {version : Version} (h : version ∈ versions) (hdoomed : version.Doomed s)
      {column : Bytes} (hcolumn : column = Version.dataColumn ∨ column = Version.stampColumn) :
      (p.compacted row (.due (Supplier.answers s)) versions).cell?
        (Version.key row version.writer) column = none := by
    rw [hcell h, (CompactionAction.due_eq_purge_iff (hfound version h)).2 hdoomed]
    exact if_pos hcolumn
  have huntouched {key column : Bytes}
      (h : ∀ version ∈ versions, key = Version.key row version.writer →
        (version.Doomed s → column ≠ Version.dataColumn ∧ column ≠ Version.stampColumn) ∧
          ∀ time, version.Owed s time → column ≠ Version.stampColumn) :
      (p.compacted row (.due (Supplier.answers s)) versions).cell? key column =
        p.cell? key column := by
    by_cases hlisted : ∃ version ∈ versions, key = Version.key row version.writer
    · obtain ⟨version, hmem, rfl⟩ := hlisted
      obtain ⟨hdoomed, howed⟩ := h version hmem rfl
      rw [hcell hmem]
      cases hdue : CompactionAction.due (Supplier.answers s) version with
      | keep => rfl
      | purge =>
        have hcolumn := hdoomed ((CompactionAction.due_eq_purge_iff (hfound version hmem)).1 hdue)
        exact if_neg (not_or.2 hcolumn)
      | settle stamp =>
        obtain ⟨time, hdebt, -⟩ :=
          (CompactionAction.due_eq_settle_iff (hfound version hmem)).1 hdue
        exact if_neg fun hcolumn => howed time hdebt hcolumn.2
    · exact Partition.cell?_compacted_of_ne fun version hmem hkey =>
        hlisted ⟨version, hmem, hkey⟩
  have hstays {version : Version} (h : version ∈ versions)
      (hkept : CompactionAction.due (Supplier.answers s) version ≠ .purge) :
      (p.compacted row (.due (Supplier.answers s)) versions).hasVersion row version.writer =
        true := by
    rw [Partition.hasVersion, hcell h]
    cases hdue : CompactionAction.due (Supplier.answers s) version with
    | keep => exact hversion h
    | purge => exact absurd hdue hkept
    | settle stamp =>
      rw [CompactionAction.cell, if_neg fun hcolumn => Partition.data_ne_stamp hcolumn.2]
      exact hversion h
  refine ⟨?gone, ?traceless, ?settled, huntouched, hretouched.name, hretouched.unavailable⟩
  case gone =>
    intro version h
    rw [← CompactionAction.due_eq_purge_iff (hfound version h)]
    constructor
    · intro hgone
      by_contra hkept
      cases hgone.symm.trans (hstays h hkept)
    · intro hdue
      rw [Partition.hasVersion, hcell h, hdue]
      rfl
  case traceless =>
    exact fun h hdoomed => ⟨htraceless h hdoomed (.inl rfl), htraceless h hdoomed (.inr rfl)⟩
  case settled =>
    intro version time h howed
    have hdue := (CompactionAction.due_eq_settle_iff (hfound version h)).2 ⟨time, howed, rfl⟩
    refine ⟨hstays h (by simp [hdue]), ?_⟩
    rw [hcell h, hdue, CompactionAction.cell, if_pos ⟨rfl, rfl⟩]

/-- Compaction of a row whose writers resolve. Every version is counted once; exactly the doomed
versions are removed, with all their cells; those of effectively committed writers carry the commit
time; and no other cell changes. Compacting the row again changes nothing and counts the remaining
versions as kept. -/
theorem compactRow_exact (hsteady : Supplier.Steady known s)
    (hversions : (region s).versions row = .ok versions)
    (hfound : ∀ version ∈ versions, version.stamp = none →
      ∃ view, Supplier.Finds s version.writer view) :
    ∃ summary s', compactRow row s = .ok summary s' ∧
      summary.kept + summary.stamped + summary.purged = versions.length ∧
      Compacted s row versions (region s) (region s') ∧
      ∃ s'', compactRow row s' = .ok ⟨summary.kept + summary.stamped, 0, 0⟩ s'' ∧
        region s'' = region s' := by
  obtain ⟨summary, s', hcompact, hsummary, hregion, hs'⟩ :=
    (compactRow_ends hsteady hsteady hversions hfound).exists_ok
  have htotal := CompactionSummary.zero.counted_total (.due (Supplier.answers s)) versions
  have hleft := CompactionSummary.zero.counted_left (.due (Supplier.answers s)) versions
  have hversions' := Partition.versions_compacted hversions (.due (Supplier.answers s))
  rw [← hsummary] at htotal hleft
  rw [← hregion] at hversions'
  refine ⟨summary, s', hcompact, by simpa [CompactionSummary.zero] using htotal,
    hregion ▸ compacted_due hversions hfound, ?_⟩
  have hidle : ∀ found ∈ versions.filterMap fun version =>
      (CompactionAction.due (Supplier.answers s) version).fate version,
      CompactionAction.due (Supplier.answers s) found = .keep ∧
        (found.stamp = none → ∃ view, Supplier.Finds s found.writer view) := by
    intro found hmem
    obtain ⟨version, hversion, hfate⟩ := List.mem_filterMap.1 hmem
    obtain ⟨hkeep, hsame⟩ := CompactionAction.due_of_fate hfate
    refine ⟨hkeep, fun hstamp => ?_⟩
    obtain rfl := hsame hstamp
    exact hfound found hversion hstamp
  obtain ⟨again, s'', hagain, hcounted, hregion', -⟩ :=
    (compactRow_ends hsteady hs' hversions' fun found hmem => (hidle found hmem).2).exists_ok
  rw [CompactionSummary.counted_of_keep _ fun found hmem => (hidle found hmem).1] at hcounted
  rw [Partition.compacted_of_keep fun found hmem => (hidle found hmem).1] at hregion'
  refine ⟨s'', ?_, hregion'⟩
  rw [hagain, hcounted]
  simp [CompactionSummary.zero] at hleft ⊢
  exact hleft.symm

/-- Four of the family left something behind: two that rolled back, of which one is stamped so, one
that committed and one that committed below another that is active. -/
def untidySite : Site (Ledger Oracle) where
  region :=
    let written : Partition := [2, 3, 6, 8].foldl (fun region writer =>
      region.withCell (Version.key [1] writer) Version.dataColumn (Version.encodeValue none))
      (.new "accounts")
    written.withCell (Version.key [1] 8) Version.stampColumn Stamp.rolledBack.encode
  supplier := Site.familyLedger

def untidyVersions : List Version :=
  [⟨8, none, some .rolledBack⟩, ⟨6, none, none⟩, ⟨3, none, none⟩, ⟨2, none, none⟩]

theorem untidySite_compacted :
    ∃ site', compactRow [1] untidySite = .ok ⟨1, 1, 2⟩ site' ∧
      Compacted untidySite [1] untidyVersions untidySite.region (region site') ∧
      ∃ site'', compactRow [1] site' = .ok ⟨2, 0, 0⟩ site'' ∧ region site'' = region site' := by
  have hsteady : Supplier.Steady Site.familyLedger.known untidySite := by
    have hsupplier : Supplier.Steady Site.familyLedger.known untidySite.supplier :=
      Site.familyLedger_steady
    exact Site.steady_iff.2 hsupplier
  have hversions : (region untidySite).versions [1] = .ok untidyVersions := by decide +kernel
  have hlooked : ∀ version ∈ untidyVersions,
      Ends (View.resolve version.writer) untidySite (fun _ _ => True) fun _ _ => False := by
    decide +kernel
  have hfound : ∀ version ∈ untidyVersions, version.stamp = none →
      ∃ view, Supplier.Finds untidySite version.writer view := by
    intro version hversion _
    obtain ⟨view, site, hresolve, -⟩ := (hlooked version hversion).exists_ok
    exact ⟨view, site, hresolve⟩
  have hsummary : Ends (compactRow [1]) untidySite (fun summary _ => summary = ⟨1, 1, 2⟩)
      fun _ _ => False := by decide +kernel
  obtain ⟨summary, site', hcompact, -, hcompacted, hagain⟩ :=
    compactRow_exact hsteady hversions hfound
  obtain rfl : summary = ⟨1, 1, 2⟩ := hsummary.of_ok hcompact
  exact ⟨site', hcompact, hcompacted, hagain⟩

end CellHolder

end Mvcc
