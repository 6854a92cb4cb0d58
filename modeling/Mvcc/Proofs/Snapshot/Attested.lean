import Mvcc.Proofs.Cell.Contents
import Mvcc.Proofs.Snapshot.Walk
import Mvcc.Proofs.Txn.Supply

/-!
# Reads and stamps

If every stamp is the outcome of its writer, an active reader's answers depend only on the contents
of the row, not on which versions are stamped.
-/

namespace Mvcc

open TxnM

variable {σ : Type} [Supplier σ]

/-! ## Resolvable writers -/

section

variable {known : TxnId → Except TxnError (Option Txn)} {s s' : σ} {id : TxnId} {view : View}

/-- The look-up of a transaction in this supplier state succeeds with this view. -/
def Supplier.Finds (s : σ) (id : TxnId) (view : View) : Prop :=
  ∃ s', View.resolve id s = .ok view s'

theorem Supplier.Finds.unique {view' : View} (h : Finds s id view) (h' : Finds s id view') :
    view = view' := by
  obtain ⟨_, h⟩ := h
  obtain ⟨_, h'⟩ := h'
  cases h.symm.trans h'
  rfl

theorem Supplier.Finds.again (hs : Steady known s) (hs' : Steady known s') (h : Finds s id view) :
    Ends (View.resolve id) s' (fun found s'' => found = view ∧ Steady known s'')
      fun _ _ => False := by
  obtain ⟨_, h⟩ := h
  obtain ⟨s'', hresolve, hs''⟩ := hs.resolve_again hs' h
  rw [Ends, hresolve]
  exact ⟨rfl, hs''⟩

theorem Supplier.Finds.lineage (hs : Steady known s) (h : Finds s id view) :
    view.id = id ∧ Lineage (Shows known) view.id view.chain := by
  obtain ⟨_, h⟩ := h
  have hchain := ((hs.resolve_ends id).of_ok h).1
  have hid : view.id = id := hchain.id_eq hs.definite
  exact ⟨hid, hid ▸ hchain⟩

end

/-! ## Rows with correct stamps -/

/-- Every writer of a row resolves, and every stamp is the outcome of its writer. -/
def Partition.Attested (shown : TxnId → View → Prop) (p : Partition) (row : Bytes) : Prop :=
  ∀ writer, (p.cell? (Version.key row writer) Version.dataColumn).isSome →
    ∃ view, shown writer view ∧
      ∀ raw, p.cell? (Version.key row writer) Version.stampColumn = some raw →
        ∃ stamp, Version.decodeStamp raw = .ok stamp ∧ view.outcome = some stamp

/-- Whether a reader sees a writer, by the writer's view. -/
def View.Sees (shown : TxnId → View → Prop) (reader : View) (entry : TxnId × Option Bytes)
    (verdict : Bool) : Prop :=
  ∃ writer, shown entry.1 writer ∧ verdict = reader.canSee writer

/-- The results of reading a row, where `sees` decides which writers are visible. -/
inductive Partition.Gives (p : Partition) (row : Bytes)
    (sees : TxnId × Option Bytes → Bool → Prop) : Except TxnError (Option Bytes) → Prop where
  | fault {e : StorageError} (h : p.contents row = .error e) :
    Gives p row sees (.error (.ofStorage e))
  | value {written : List (TxnId × Option Bytes)} {found : Option (TxnId × Option Bytes)}
    (h : p.contents row = .ok written) (hfirst : FirstJudged sees written found) :
    Gives p row sees (.ok (found.bind (·.2)))

namespace Partition

variable {shown : TxnId → View → Prop} {p p' : Partition} {row : Bytes} {writer : TxnId}
  {view : View} {sees : TxnId × Option Bytes → Bool → Prop}
  {answer answer' : Except TxnError (Option Bytes)}

theorem Gives.unique (hdecided : Decided sees) (h : p.Gives row sees answer)
    (h' : p.Gives row sees answer') : answer = answer' := by
  cases h with
  | fault hcontents =>
    cases h' with
    | fault hcontents' =>
      cases hcontents.symm.trans hcontents'
      rfl
    | value hcontents' hfirst' => cases hcontents.symm.trans hcontents'
  | value hcontents hfirst =>
    cases h' with
    | fault hcontents' => cases hcontents.symm.trans hcontents'
    | value hcontents' hfirst' =>
      cases hcontents.symm.trans hcontents'
      rw [hfirst.unique hdecided hfirst']

theorem Gives.of_contents (h : p.Gives row sees answer) (hsame : p'.contents row = p.contents row) :
    p'.Gives row sees answer := by
  cases h with
  | fault hcontents => exact .fault (hsame.trans hcontents)
  | value hcontents hfirst => exact .value (hsame.trans hcontents) hfirst

/-- Purging an invisible version does not change the result. -/
theorem Gives.purged (hdecided : Decided sees) (h : p.Gives row sees answer)
    {written : List (TxnId × Option Bytes)} (hcontents : p.contents row = .ok written)
    (hunseen : ∀ value, sees (writer, value) false) :
    (p.purged row writer).Gives row sees answer := by
  cases h with
  | fault hfault => cases hcontents.symm.trans hfault
  | value hcontents' hfirst =>
    refine .value (contents_purged hcontents' writer) (hfirst.filter hdecided ?_)
    rintro ⟨other, value⟩ - hother
    have hsame : other = writer := by simpa using hother
    subst hsame
    exact hunseen value

theorem Attested.of_version (h : p.Attested shown row) {version : Version}
    (hversion : p.version? row version.writer = some version) :
    ∃ view, shown version.writer view ∧
      ∀ stamp, version.stamp = some stamp → view.outcome = some stamp := by
  obtain ⟨-, hvalue, hstamp⟩ := version?_eq_some_iff.1 hversion
  obtain ⟨raw, hraw, -⟩ := Option.bind_eq_some_iff.1 hvalue
  obtain ⟨view, hshown, hstamps⟩ := h version.writer (by simp [hraw])
  refine ⟨view, hshown, fun stamp hstamped => ?_⟩
  rw [hstamped] at hstamp
  obtain ⟨mark, hmark, hdecode⟩ := Option.bind_eq_some_iff.1 hstamp
  obtain ⟨found, hfound, houtcome⟩ := hstamps mark hmark
  rw [hfound] at hdecode
  cases hdecode
  exact houtcome

/-- Stamping a version with its writer's outcome keeps the stamps of the row true. -/
theorem Attested.stamped (h : p.Attested shown row) {row' : Bytes} {stamp : Stamp}
    (hshown : ∀ view, shown writer view → view.outcome = some stamp)
    (hchange : p.stampVersion row' writer stamp = .ok p') :
    p'.Attested shown row ∧ p'.contents row = p.contents row := by
  cases havailable : p.unavailable with
  | true =>
    simp [stampVersion, VersionTask.run, VersionTask.remaining, VersionTask.runFor,
      VersionTask.step, get, serve, havailable, bind, Except.bind] at hchange
  | false =>
    rw [stampVersion_of_available havailable] at hchange
    split at hchange
    · rename_i hdata
      cases hchange
      constructor
      · intro other hother
        rw [cell?_withCell_key, if_neg fun h => data_ne_stamp h.2] at hother
        obtain ⟨found, hfound, hstamps⟩ := h other hother
        refine ⟨found, hfound, fun raw hraw => ?_⟩
        rw [cell?_withCell_key] at hraw
        by_cases hkey : row = row' ∧ other = writer
        · obtain ⟨rfl, rfl⟩ := hkey
          rw [if_pos (by simp)] at hraw
          cases hraw
          exact ⟨stamp, Version.decodeStamp_encode stamp, hshown found hfound⟩
        · rw [if_neg fun h => hkey h.1] at hraw
          exact hstamps raw hraw
      · refine contents_withStamp hdata stamp ?_
        rintro rfl raw hraw
        obtain ⟨found, -, hstamps⟩ := h writer hdata
        obtain ⟨mark, hmark, -⟩ := hstamps raw hraw
        exact ⟨mark, hmark⟩
    · cases hchange
      exact ⟨h, rfl⟩

theorem Attested.purged (h : p.Attested shown row) (writer : TxnId) :
    (p.purged row writer).Attested shown row := by
  intro other hdata
  rw [cell?_purged _ _ _ _ _ (by simp)] at hdata
  by_cases hother : other = writer
  · simp [hother] at hdata
  · rw [if_neg (by simp [hother])] at hdata
    rw [cell?_purged _ _ _ _ _ (by simp), if_neg (by simp [hother])]
    exact h other hdata

end Partition

/-! ## Readers -/

section

variable {known : TxnId → Except TxnError (Option Txn)} {s₀ s : σ} {reader : View} {row : Bytes}
  {p : Partition}

theorem View.sees_decided (s₀ : σ) (reader : View) :
    Decided (reader.Sees (Supplier.Finds s₀)) := by
  rintro entry ⟨⟨view, hview, htrue⟩, view', hview', hfalse⟩
  rw [hview.unique hview'] at htrue
  cases htrue.trans hfalse.symm

theorem View.sees_of_rolledBack (hs₀ : Supplier.Steady known s₀) (hreader : reader.Current s₀)
    (hactive : reader.effectiveState = .active) {writer : TxnId} {view : View}
    (hview : Supplier.Finds s₀ writer view) (houtcome : view.outcome = some .rolledBack)
    (value : Option Bytes) : reader.Sees (Supplier.Finds s₀) (writer, value) false := by
  obtain ⟨-, hchain⟩ := hview.lineage hs₀
  exact ⟨view, hview, (View.canSee_of_rolledBack hs₀.definite (hreader.stands hs₀) hactive hchain
    houtcome).symm⟩

/-- A stamped version is judged like its writer. -/
theorem View.sees_of_judges (hs₀ : Supplier.Steady known s₀) (hreader : reader.Current s₀)
    (hactive : reader.effectiveState = .active) {version : Version}
    (hversion : ∃ view, Supplier.Finds s₀ version.writer view ∧
      ∀ stamp, version.stamp = some stamp → view.outcome = some stamp) {verdict : Bool}
    (h : reader.Judges (Supplier.Finds s₀) version verdict) :
    reader.Sees (Supplier.Finds s₀) version.bare verdict := by
  obtain ⟨view, hview, hstamp⟩ := hversion
  obtain ⟨hid, hchain⟩ := hview.lineage hs₀
  unfold View.Judges at h
  split at h
  · rename_i hfound
    rw [h]
    exact View.sees_of_rolledBack hs₀ hreader hactive hview (hstamp .rolledBack hfound) _
  · rename_i time hfound
    refine ⟨view, hview, ?_⟩
    rw [h, View.canSee_of_committed hs₀.definite (hreader.stands hs₀) hactive hchain
      (hstamp (.committed time) hfound), hid]
  · exact h

/-- The result of an active reader is determined by the contents of the row, independently of the
stamps. -/
theorem readRow_gives (hs₀ : Supplier.Steady known s₀) (hs : Supplier.Steady known s)
    (hattested : p.Attested (Supplier.Finds s₀) row) (hreader : reader.Current s₀)
    (hactive : reader.effectiveState = .active) :
    p.Gives row (reader.Sees (Supplier.Finds s₀)) (readRow p reader row s).1.answer := by
  cases hversions : p.versions row with
  | error e =>
    have hcontents : p.contents row = .error e := by rw [Partition.contents, hversions]; rfl
    simp only [readRow, hversions]
    exact .fault hcontents
  | ok versions =>
    have hcontents : p.contents row = .ok (versions.map Version.bare) := by
      rw [Partition.contents, hversions]
      rfl
    obtain ⟨-, hmem⟩ := Partition.versions_spec hversions
    have hwriters : ∀ version ∈ versions, ∃ view, Supplier.Finds s₀ version.writer view ∧
        ∀ stamp, version.stamp = some stamp → view.outcome = some stamp :=
      fun version hversion => hattested.of_version ((hmem version).1 hversion)
    have hresolve : ∀ version ∈ versions, version.stamp = none →
        ∀ s : σ, Supplier.Steady known s → Ends (View.resolve version.writer) s
          (fun view s' => Supplier.Finds s₀ version.writer view ∧ Supplier.Steady known s')
          fun _ _ => False := by
      intro version hversion _ s hs
      obtain ⟨view, hview, -⟩ := hwriters version hversion
      refine (hview.again hs₀ hs).mono ?_ fun _ _ h => h
      rintro _ s' ⟨rfl, hs'⟩
      exact ⟨hview, hs'⟩
    obtain ⟨found, hfirst, hanswer⟩ := firstVisible_judged hs reader versions hresolve
    have hjudged : ∀ version ∈ versions, ∀ verdict,
        reader.Judges (Supplier.Finds s₀) version verdict →
          reader.Sees (Supplier.Finds s₀) version.bare verdict := fun version hversion _ =>
      View.sees_of_judges hs₀ hreader hactive (hwriters version hversion)
    have hvalue : (found.map Version.bare).bind (·.2) = found.bind (·.value) := by
      cases found <;> rfl
    simp only [readRow, hversions, hanswer, ← hvalue]
    exact .value hcontents (hfirst.map hjudged)

end

end Mvcc
