import Mvcc.Proofs.Snapshot.Attested
import Mvcc.Proofs.Snapshot.Site
import Mvcc.Proofs.Txn.Finality

/-!
# Reads under stamping and compaction

Versions are stamped and purged between reads. While transactions do not change, active readers
cannot observe it: stamps are the outcomes of the writers, and purged versions were visible to no
reader.
-/

namespace Mvcc

open TxnM

variable {σ : Type} [Supplier σ]

/-! ## Tidying up -/

/-- The action on a version agrees with the outcome of its writer. -/
def CompactionAction.BorneOut (outcome : Option Stamp) : CompactionAction → Prop
  | .keep => True
  | .settle stamp => outcome = some stamp
  | .purge => outcome = some .rolledBack

theorem CompactionAction.borneOut_ofOutcome (outcome : Option Stamp) :
    (ofOutcome outcome).BorneOut outcome := by
  match outcome with
  | none => exact trivial
  | some .rolledBack => exact rfl
  | some (.committed time) => exact rfl

/-- An operation on the row, or on other rows, between reads. -/
inductive Tidying where
  /-- Resolve the version that a transaction wrote in some row. -/
  | resolve (row : Bytes) (writer : TxnId)
  /-- Compact the row that is read. -/
  | compact
  deriving DecidableEq, Repr

namespace Site

def tidy (row : Bytes) (site : Site σ) : Tidying → Site σ
  | .resolve other writer => (CellHolder.resolve other writer site).2
  | .compact =>
    match CellHolder.compactRow row site with
    | .ok _ site' => site'
    | .error _ site' => site'

def tidied (row : Bytes) (site : Site σ) (works : List Tidying) : Site σ :=
  works.foldl (tidy row) site

def read (reader : View) (row : Bytes) (site : Site σ) : Except TxnError (Option Bytes) :=
  (readRow site.region reader row site.supplier).1.answer

/-- Every writer of a row resolves, and every stamp is the outcome of its writer. -/
def Attested (site : Site σ) (row : Bytes) : Prop :=
  site.region.Attested (Supplier.Finds site.supplier) row

/-- The writer of a version resolves, and the stamp, if any, is its outcome. -/
def vouches (site : Site σ) (version : Version) : Bool :=
  match View.resolve version.writer site.supplier with
  | .ok view _ => version.stamp.all (view.outcome = some ·)
  | .error _ _ => false

theorem vouches_iff {site : Site σ} {version : Version} :
    site.vouches version = true ↔ ∃ view, Supplier.Finds site.supplier version.writer view ∧
      ∀ stamp, version.stamp = some stamp → view.outcome = some stamp := by
  unfold vouches Supplier.Finds
  cases View.resolve version.writer site.supplier with
  | error e s => simp
  | ok view s => cases version.stamp <;> simp

theorem attested_iff {site : Site σ} {row : Bytes} {versions : List Version}
    (h : site.region.versions row = .ok versions) :
    site.Attested row ↔ ∀ version ∈ versions, site.vouches version = true := by
  have hlegible := Partition.legibleAt_of_versions h
  obtain ⟨-, hmem⟩ := Partition.versions_spec h
  constructor
  · intro hattested version hversion
    exact vouches_iff.2 (hattested.of_version ((hmem version).1 hversion))
  · intro hvouches writer hdata
    obtain ⟨hvalue, hstamp⟩ := hlegible writer
    have hwritten : (site.region.value? row writer).isSome := by
      rw [Except.isSome_of_option_mapM hvalue]
      exact hdata
    obtain ⟨value, hwritten⟩ := Option.isSome_iff_exists.1 hwritten
    have hversion : (⟨writer, value, site.region.stamp? row writer⟩ : Version) ∈ versions :=
      (hmem _).2 (Partition.version?_eq_some_iff.2 ⟨rfl, hwritten, rfl⟩)
    obtain ⟨view, hview, houtcome⟩ := vouches_iff.1 (hvouches _ hversion)
    refine ⟨view, hview, fun raw hraw => ?_⟩
    cases hdecode : Version.decodeStamp raw with
    | error e => simp [hraw, hdecode, Functor.map, Except.map] at hstamp
    | ok stamp =>
      have hfound : site.region.stamp? row writer = some stamp := by
        simpa [hraw, hdecode, Functor.map, Except.map, eq_comm] using hstamp
      exact ⟨stamp, rfl, houtcome stamp hfound⟩

section

variable {known : TxnId → Except TxnError (Option Txn)} {s₀ : σ} {row : Bytes}
  {sees : TxnId × Option Bytes → Bool → Prop} {answer : Except TxnError (Option Bytes)}
  {site : Site σ} {writer : TxnId} {view : View}

/-- What tidying preserves: the known transactions, the truth of the stamps of the row, and the
result of reading it. -/
structure Kept (known : TxnId → Except TxnError (Option Txn)) (s₀ : σ) (row : Bytes)
    (sees : TxnId × Option Bytes → Bool → Prop) (answer : Except TxnError (Option Bytes))
    (site : Site σ) : Prop where
  steady : Supplier.Steady known site.supplier
  attested : site.region.Attested (Supplier.Finds s₀) row
  gives : site.region.Gives row sees answer

theorem resolve_kept (hs₀ : Supplier.Steady known s₀) (h : Kept known s₀ row sees answer site)
    (writer : TxnId) :
    Ends (View.resolve writer) site
      (fun view site' => Supplier.Finds s₀ writer view ∧ Kept known s₀ row sees answer site')
      fun _ site' => Kept known s₀ row sees answer site' := by
  refine resolve_ends_iff.2 (Ends.of_forall (fun view s' hresolve => ?_) fun e s' hresolve => ?_)
  · have hs' := ((h.steady.resolve_ends writer).of_ok hresolve).2
    obtain ⟨s₁, hfound, -⟩ := h.steady.resolve_again hs₀ hresolve
    exact ⟨⟨s₁, hfound⟩, hs', h.attested, h.gives⟩
  · exact ⟨(h.steady.resolve_ends writer).of_error hresolve, h.attested, h.gives⟩

theorem alter_kept {change : Partition → Except StorageError Partition}
    (h : Kept known s₀ row sees answer site)
    (hchange : ∀ region, change site.region = .ok region →
      region.Attested (Supplier.Finds s₀) row ∧ region.Gives row sees answer) :
    Leaves (CellHolder.alter change) site (Kept known s₀ row sees answer) := by
  unfold Leaves Ends CellHolder.alter
  cases hregion : change (CellHolder.region site) with
  | error fault => exact h
  | ok region =>
    obtain ⟨hattested, hgives⟩ := hchange region hregion
    exact ⟨h.steady, hattested, hgives⟩

theorem stamp_kept (h : Kept known s₀ row sees answer site) (hview : Supplier.Finds s₀ writer view)
    {stamp : Stamp} (houtcome : view.outcome = some stamp) (row' : Bytes) :
    Leaves (CellHolder.alter (·.stampVersion row' writer stamp)) site
      (Kept known s₀ row sees answer) := by
  refine alter_kept h fun region hregion => ?_
  have hshown : ∀ found, Supplier.Finds s₀ writer found → found.outcome = some stamp :=
    fun found hfound => hfound.unique hview ▸ houtcome
  obtain ⟨hattested, hcontents⟩ := h.attested.stamped hshown hregion
  exact ⟨hattested, h.gives.of_contents hcontents⟩

theorem Kept.exists_contents {value : Option Bytes} (h : Kept known s₀ row sees (.ok value) site) :
    ∃ written, site.region.contents row = .ok written := by
  cases h.gives with
  | value hcontents hfirst => exact ⟨_, hcontents⟩

theorem purge_kept {value : Option Bytes} (hdecided : Decided sees)
    (h : Kept known s₀ row sees (.ok value) site) (hunseen : ∀ value, sees (writer, value) false) :
    Leaves (CellHolder.alter (·.purgeVersion row writer)) site
      (Kept known s₀ row sees (.ok value)) := by
  obtain ⟨written, hcontents⟩ := h.exists_contents
  obtain ⟨versions, hversions, -⟩ := Partition.versions_of_contents hcontents
  have havailable := Partition.available_of_versions hversions
  refine alter_kept h fun region hregion => ?_
  cases (Partition.purgeVersion_of_available havailable row writer).symm.trans hregion
  exact ⟨h.attested.purged writer, h.gives.purged hdecided hcontents hunseen⟩

theorem resolved_kept (hs₀ : Supplier.Steady known s₀) (h : Kept known s₀ row sees answer site)
    (row' : Bytes) (writer : TxnId) :
    Kept known s₀ row sees answer (CellHolder.resolve row' writer site).2 := by
  have hlookup := resolve_kept hs₀ h writer
  unfold CellHolder.resolve
  cases hresolve : View.resolve writer site with
  | error e site₁ => exact hlookup.of_error hresolve
  | ok view site₁ =>
    obtain ⟨hview, hkept⟩ := hlookup.of_ok hresolve
    cases houtcome : view.outcome with
    | none => simpa only [houtcome] using hkept
    | some stamp =>
      have hstamped := stamp_kept hkept hview houtcome row'
      simp only [houtcome]
      cases halter : CellHolder.alter (·.stampVersion row' writer stamp) site₁ with
      | error e site₂ => exact hstamped.of_error halter
      | ok _ site₂ => exact hstamped.of_ok halter

theorem classify_kept (hs₀ : Supplier.Steady known s₀) (h : Kept known s₀ row sees answer site)
    (hview : Supplier.Finds s₀ writer view) {stamp : Option Stamp}
    (hstamp : ∀ found, stamp = some found → view.outcome = some found) :
    Ends (classify writer stamp) site
      (fun action site' => action.BorneOut view.outcome ∧ Kept known s₀ row sees answer site')
      fun _ site' => Kept known s₀ row sees answer site' := by
  unfold classify
  match stamp with
  | some .rolledBack => exact ⟨hstamp .rolledBack rfl, h⟩
  | some (.committed time) => exact ⟨trivial, h⟩
  | none =>
    rw [ends_bind]
    refine (resolve_kept hs₀ h writer).mono ?_ (fun _ _ h => h)
    rintro found site' ⟨hfound, hkept⟩
    rw [hview.unique hfound]
    exact ⟨CompactionAction.borneOut_ofOutcome _, hkept⟩

theorem apply_kept {value : Option Bytes} (hdecided : Decided sees)
    (h : Kept known s₀ row sees (.ok value) site) (hview : Supplier.Finds s₀ writer view)
    (hunseen : view.outcome = some .rolledBack → ∀ value, sees (writer, value) false)
    {action : CompactionAction} (haction : action.BorneOut view.outcome) :
    Leaves (CellHolder.apply row writer action) site (Kept known s₀ row sees (.ok value)) := by
  cases action with
  | keep => exact h
  | settle stamp => exact stamp_kept h hview haction row
  | purge => exact purge_kept hdecided h (hunseen haction)

/-- What was listed of a version stays true until its turn comes. -/
theorem compactVersions_kept {value : Option Bytes} (hs₀ : Supplier.Steady known s₀)
    (hdecided : Decided sees) (h : Kept known s₀ row sees (.ok value) site)
    (hunseen : ∀ writer view, Supplier.Finds s₀ writer view → view.outcome = some .rolledBack →
      ∀ value, sees (writer, value) false)
    (versions : List Version) (summary : CompactionSummary)
    (hversions : ∀ version ∈ versions, ∃ view, Supplier.Finds s₀ version.writer view ∧
      ∀ stamp, version.stamp = some stamp → view.outcome = some stamp) :
    Leaves (CellHolder.compactVersions row versions summary) site
      (Kept known s₀ row sees (.ok value)) := by
  induction versions generalizing site summary with
  | nil => exact h
  | cons version older ih =>
    obtain ⟨⟨view, hview, hstamp⟩, holder⟩ := List.forall_mem_cons.1 hversions
    simp only [CellHolder.compactVersions, CellHolder.compactVersion, ends_bind]
    refine (classify_kept hs₀ h hview hstamp).mono ?_ (fun _ _ h => h)
    rintro action site₁ ⟨haction, hkept⟩
    refine (apply_kept hdecided hkept hview (hunseen _ view hview) haction).mono ?_
      (fun _ _ h => h)
    intro _ site₂ hkept'
    exact ih hkept' (summary.add action) holder

theorem compactRow_kept (hs₀ : Supplier.Steady known s₀) (hdecided : Decided sees)
    (h : Kept known s₀ row sees answer site)
    (hunseen : ∀ writer view, Supplier.Finds s₀ writer view → view.outcome = some .rolledBack →
      ∀ value, sees (writer, value) false) :
    Leaves (CellHolder.compactRow row) site (Kept known s₀ row sees answer) := by
  simp only [CellHolder.compactRow, ends_bind, ends_get, ends_ofExcept]
  have hregion : CellHolder.region site = site.region := rfl
  rw [hregion]
  cases hversions : site.region.versions row with
  | error fault => exact h
  | ok versions =>
    obtain ⟨value, rfl⟩ : ∃ value, answer = .ok value := by
      cases h.gives with
      | fault hfault => simp [Partition.contents, hversions, Except.map] at hfault
      | value hcontents hfirst => exact ⟨_, rfl⟩
    obtain ⟨-, hmem⟩ := Partition.versions_spec hversions
    exact compactVersions_kept hs₀ hdecided h hunseen versions .zero
      fun version hversion => h.attested.of_version ((hmem version).1 hversion)

theorem tidy_kept (hs₀ : Supplier.Steady known s₀) (hdecided : Decided sees)
    (h : Kept known s₀ row sees answer site)
    (hunseen : ∀ writer view, Supplier.Finds s₀ writer view → view.outcome = some .rolledBack →
      ∀ value, sees (writer, value) false) (work : Tidying) :
    Kept known s₀ row sees answer (site.tidy row work) := by
  cases work with
  | resolve row' writer => exact resolved_kept hs₀ h row' writer
  | compact =>
    have hends := compactRow_kept hs₀ hdecided h hunseen
    unfold tidy
    cases hcompact : CellHolder.compactRow row site with
    | error e site' => exact hends.of_error hcompact
    | ok summary site' => exact hends.of_ok hcompact

theorem tidied_kept (hs₀ : Supplier.Steady known s₀) (hdecided : Decided sees)
    (h : Kept known s₀ row sees answer site)
    (hunseen : ∀ writer view, Supplier.Finds s₀ writer view → view.outcome = some .rolledBack →
      ∀ value, sees (writer, value) false) (works : List Tidying) :
    Kept known s₀ row sees answer (site.tidied row works) := by
  induction works generalizing site with
  | nil => exact h
  | cons work works ih => exact ih (tidy_kept hs₀ hdecided h hunseen work)

end

/-- While the transactions do not change, tidying a row does not change what a current active reader
reads there. -/
theorem read_tidied {known : TxnId → Except TxnError (Option Txn)} {site : Site σ} {row : Bytes}
    {reader : View} (hsteady : Supplier.Steady known site.supplier) (hattested : site.Attested row)
    (hreader : reader.Current site.supplier) (hactive : reader.effectiveState = .active)
    (works : List Tidying) :
    (site.tidied row works).read reader row = site.read reader row := by
  have hdecided := View.sees_decided site.supplier reader
  have hunseen : ∀ writer view, Supplier.Finds site.supplier writer view →
      view.outcome = some .rolledBack →
      ∀ value, reader.Sees (Supplier.Finds site.supplier) (writer, value) false :=
    fun _ _ hview houtcome => View.sees_of_rolledBack hsteady hreader hactive hview houtcome
  have hstart : Kept known site.supplier row (reader.Sees (Supplier.Finds site.supplier))
      (site.read reader row) site :=
    ⟨hsteady, hattested, readRow_gives hsteady hsteady hattested hreader hactive⟩
  have hkept := tidied_kept hsteady hdecided hstart hunseen works
  have hread := readRow_gives hsteady hkept.steady hkept.attested hreader hactive
  exact hread.unique hdecided hkept.gives

/-- A transaction with a committed and a rolled-back child, and two others, one rolled back and one
committed. -/
def familyOperations : List Ledger.Operation :=
  [.create none none none, .create none none none, .rollback 2, .create none none none,
    .commit 3, .create none none none, .create (some 5) none none, .commit 6,
    .create (some 5) none none, .rollback 8]

@[irreducible] def familyLedger : Ledger Oracle := (Ledger.fromZero .standard).run familyOperations

theorem familyLedger_steady : Supplier.Steady familyLedger.known familyLedger := by
  have hready : Ledger.Ready (familyOperations ++ []) (Ledger.fromZero .standard) :=
    Ledger.ready_new (.inl (by decide +kernel))
  have hforward : Ledger.Forward (Ledger.fromZero .standard).now familyOperations := by
    decide +kernel
  have hfaithful : familyLedger.register.Faithful := by
    unfold familyLedger
    exact Ledger.faithful_run hready Ledger.faithful_new hforward
  exact Ledger.steady hfaithful

/-- All but the first have a version in a row, and one version is stamped. -/
def familySite : Site (Ledger Oracle) where
  region :=
    let written : Partition := [(2, 20), (3, 30), (6, 60), (8, 80)].foldl (fun region version =>
      region.withCell (Version.key [1] version.1) Version.dataColumn
        (Version.encodeValue (some [version.2]))) (.new "accounts")
    written.withCell (Version.key [1] 3) Version.stampColumn (Stamp.committed 4).encode
  supplier := familyLedger

theorem familySite_attested : familySite.Attested [1] := by
  have hversions : familySite.region.versions [1] =
      .ok [⟨8, some [80], none⟩, ⟨6, some [60], none⟩, ⟨3, some [30], some (.committed 4)⟩,
        ⟨2, some [20], none⟩] := by decide +kernel
  refine (attested_iff hversions).2 ?_
  decide +kernel

theorem read_tidied_in_family :
    ∃ reader s, View.resolve 5 familySite.supplier = .ok reader s ∧
      familySite.read reader [1] = .ok (some [60]) ∧
      (familySite.tidied [1] [.resolve [1] 8, .compact, .resolve [1] 3, .compact]).read reader
        [1] = familySite.read reader [1] := by
  have hviewed : TxnM.Ends (View.resolve 5) familyLedger
      (fun view _ => view.id = 5 ∧ view.effectiveState = .active ∧
        familySite.read view [1] = .ok (some [60])) fun _ _ => False := by
    decide +kernel
  obtain ⟨reader, s, hresolve, hid, hactive, hread⟩ := hviewed.exists_ok
  have hsteady : Supplier.Steady familyLedger.known familySite.supplier := familyLedger_steady
  have hcurrent : reader.Current familySite.supplier := .stored (hid ▸ hresolve)
  exact ⟨reader, s, hresolve, hread,
    read_tidied hsteady familySite_attested hcurrent hactive _⟩

end Site

end Mvcc
