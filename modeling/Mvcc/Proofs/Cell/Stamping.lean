import Mvcc.Proofs.Cell.Versions

/-!
# Stamped versions

Stamping commutes over versions and is idempotent. Operations on versions change no other rows of a
partition.
-/

namespace Mvcc

namespace Partition

variable {p : Partition} {row row' : Bytes} {writer writer' : TxnId} {stamp stamp' : Stamp}

/-! ## Stamped versions -/

/-- The writer has a version in the row. -/
def hasVersion (p : Partition) (row : Bytes) (writer : TxnId) : Bool :=
  (p.cell? (Version.key row writer) Version.dataColumn).isSome

/-- A version is present and carries a stamp. -/
def Carries (p : Partition) (row : Bytes) (writer : TxnId) (stamp : Stamp) : Prop :=
  p.hasVersion row writer = true ∧
    p.cell? (Version.key row writer) Version.stampColumn = some stamp.encode

instance (p : Partition) (row : Bytes) (writer : TxnId) (stamp : Stamp) :
    Decidable (p.Carries row writer stamp) :=
  inferInstanceAs (Decidable (_ ∧ _))

/-- The partition after stamping a version, if it is present. -/
def stamped (p : Partition) (row : Bytes) (writer : TxnId) (stamp : Stamp) : Partition :=
  if p.hasVersion row writer then
    p.withCell (Version.key row writer) Version.stampColumn stamp.encode
  else p

theorem hasVersion_stamped (p : Partition) (row row' : Bytes) (writer writer' : TxnId)
    (stamp : Stamp) :
    (p.stamped row writer stamp).hasVersion row' writer' = p.hasVersion row' writer' := by
  unfold stamped
  split
  · rw [hasVersion, cell?_withCell_key, if_neg fun h => data_ne_stamp h.2, hasVersion]
  · rfl

/-- A stamp is carried afterwards exactly if a version was present to carry it. -/
theorem carries_stamped_iff :
    (p.stamped row writer stamp).Carries row writer stamp ↔ p.hasVersion row writer = true := by
  rw [Carries, hasVersion_stamped]
  refine ⟨And.left, fun h => ⟨h, ?_⟩⟩
  rw [stamped, if_pos h, cell?_withCell_key, if_pos ⟨⟨rfl, rfl⟩, rfl⟩]

theorem carries_stamped_of_ne (hkey : ¬(row' = row ∧ writer' = writer)) :
    (p.stamped row writer stamp).Carries row' writer' stamp' ↔ p.Carries row' writer' stamp' := by
  rw [Carries, Carries, hasVersion_stamped]
  unfold stamped
  split
  · rw [cell?_withCell_key, if_neg fun hsame => hkey hsame.1]
  · rfl

theorem Carries.stamped (h : p.Carries row' writer' stamp') (row : Bytes) (writer : TxnId)
    (stamp : Stamp) : ∃ stamp', (p.stamped row writer stamp).Carries row' writer' stamp' := by
  by_cases hkey : row' = row ∧ writer' = writer
  · obtain ⟨rfl, rfl⟩ := hkey
    exact ⟨stamp, carries_stamped_iff.2 h.1⟩
  · exact ⟨stamp', (carries_stamped_of_ne hkey).2 h⟩

theorem stamped_of_absent (h : p.hasVersion row writer = false) :
    p.stamped row writer stamp = p := by
  simp [stamped, h]

theorem stampVersion_eq_ok_iff {p' : Partition} :
    p.stampVersion row writer stamp = .ok p' ↔
      p.unavailable = false ∧ p' = p.stamped row writer stamp := by
  cases havailable : p.unavailable with
  | false =>
    have hstamped : p.stampVersion row writer stamp = .ok (p.stamped row writer stamp) :=
      stampVersion_of_available havailable row writer stamp
    rw [hstamped, Except.ok.injEq, eq_comm]
    exact (and_iff_right rfl).symm
  | true =>
    simp [stampVersion, VersionTask.run, VersionTask.remaining, VersionTask.runFor,
      VersionTask.step, get, serve, havailable, bind, Except.bind]

theorem decodeStamp_eq_ok_iff {raw : Bytes} :
    Version.decodeStamp raw = .ok stamp ↔ raw = stamp.encode := by
  constructor
  · intro h
    have hdecode := Except.mapError_eq_ok_iff.1 h
    unfold Stamp.decode at hdecode
    split at hdecode
    · cases hdecode
    · split at hdecode
      · rename_i hcommitted
        obtain ⟨rfl, hlength⟩ := hcommitted
        cases hdecode
        rw [Stamp.encode, BigEndian.ofWord_toWord hlength]
      · split at hdecode
        · rename_i hrolledBack
          obtain ⟨rfl, rfl⟩ := hrolledBack
          cases hdecode
          rfl
        · cases hdecode
  · rintro rfl
    exact Version.decodeStamp_encode stamp

/-- In a row that can be read, the versions that carry a stamp are those that are listed with it. -/
theorem carries_iff_version? (h : p.LegibleAt row) :
    p.Carries row writer stamp ↔
      ∃ version, p.version? row writer = some version ∧ version.stamp = some stamp := by
  obtain ⟨hvalue, hstamp⟩ := h writer
  have hpresent : (p.value? row writer).isSome = p.hasVersion row writer :=
    Except.isSome_of_option_mapM hvalue
  have hcarried : p.stamp? row writer = some stamp ↔
      p.cell? (Version.key row writer) Version.stampColumn = some stamp.encode := by
    cases hraw : p.cell? (Version.key row writer) Version.stampColumn with
    | none => simp [stamp?, hraw]
    | some raw =>
      have hread : p.stamp? row writer = some stamp ↔ Version.decodeStamp raw = .ok stamp := by
        rw [stamp?, hraw, Option.bind_some]
        cases Version.decodeStamp raw <;> simp [Except.toOption]
      rw [hread, decodeStamp_eq_ok_iff, Option.some_inj]
  rw [Carries, ← hpresent, ← hcarried]
  constructor
  · rintro ⟨hsome, hfound⟩
    obtain ⟨value, hwritten⟩ := Option.isSome_iff_exists.1 hsome
    exact ⟨⟨writer, value, some stamp⟩, version?_eq_some_iff.2 ⟨rfl, hwritten, hfound⟩, rfl⟩
  · rintro ⟨version, hversion, hfound⟩
    obtain ⟨-, hwritten, hcarried⟩ := version?_eq_some_iff.1 hversion
    exact ⟨hwritten ▸ rfl, hcarried.trans hfound⟩

/-! ## Several stamps -/

/-- Stamps commute unless they put different stamps on one version. -/
theorem stamped_comm (h : row = row' ∧ writer = writer' → stamp = stamp') :
    (p.stamped row writer stamp).stamped row' writer' stamp' =
      (p.stamped row' writer' stamp').stamped row writer stamp := by
  cases hversion : p.hasVersion row writer with
  | false =>
    have habsent : (p.stamped row' writer' stamp').hasVersion row writer = false :=
      (hasVersion_stamped ..).trans hversion
    rw [stamped_of_absent hversion, stamped_of_absent habsent]
  | true =>
    cases hversion' : p.hasVersion row' writer' with
    | false =>
      have habsent : (p.stamped row writer stamp).hasVersion row' writer' = false :=
        (hasVersion_stamped ..).trans hversion'
      rw [stamped_of_absent hversion', stamped_of_absent habsent]
    | true =>
      have hkept : ∀ (row₁ row₂ : Bytes) (writer₁ writer₂ : TxnId) (stamp₁ stamp₂ : Stamp),
          p.hasVersion row₁ writer₁ = true → p.hasVersion row₂ writer₂ = true →
          (p.stamped row₁ writer₁ stamp₁).stamped row₂ writer₂ stamp₂ =
            (p.withCell (Version.key row₁ writer₁) Version.stampColumn stamp₁.encode).withCell
              (Version.key row₂ writer₂) Version.stampColumn stamp₂.encode := by
        intro row₁ row₂ writer₁ writer₂ stamp₁ stamp₂ h₁ h₂
        rw [stamped, hasVersion_stamped, if_pos h₂, stamped, if_pos h₁]
      rw [hkept _ _ _ _ _ _ hversion hversion', hkept _ _ _ _ _ _ hversion' hversion]
      exact withCell_comm fun hsame => by rw [h (Version.key_inj.1 hsame.1)]

theorem stamped_of_carries (h : p.Carries row writer stamp) :
    p.stamped row writer stamp = { p with puts := p.puts + 1 } := by
  rw [stamped, if_pos h.1, withCell_of_cell? h.2]

theorem Carries.stamped_of_same (h : p.Carries row' writer' stamp')
    (hsame : row = row' ∧ writer = writer' → stamp = stamp') :
    (p.stamped row writer stamp).Carries row' writer' stamp' := by
  by_cases hkey : row' = row ∧ writer' = writer
  · obtain ⟨rfl, rfl⟩ := hkey
    rw [hsame ⟨rfl, rfl⟩]
    exact carries_stamped_iff.2 h.1
  · exact (carries_stamped_of_ne hkey).2 h

/-! ## Beside the versions -/

/-- A partition after versions were written, stamped or purged: other cells are unchanged. -/
structure Retouched (p p' : Partition) : Prop where
  name : p'.name = p.name
  unavailable : p'.unavailable = p.unavailable
  columns {key : Bytes} (h : ∀ row writer, key ≠ Version.key row writer) :
    p'.columns key = p.columns key

theorem Retouched.refl (p : Partition) : p.Retouched p := ⟨rfl, rfl, fun _ => rfl⟩

theorem Retouched.trans {p' p'' : Partition} (h : p.Retouched p') (h' : p'.Retouched p'') :
    p.Retouched p'' where
  name := h'.name.trans h.name
  unavailable := h'.unavailable.trans h.unavailable
  columns hkey := (h'.columns hkey).trans (h.columns hkey)

theorem retouched_withCell (p : Partition) (row : Bytes) (writer : TxnId) (column value : Bytes) :
    p.Retouched (p.withCell (Version.key row writer) column value) :=
  ⟨rfl, rfl, fun hkey => by rw [columns_withCell, if_neg (hkey row writer)]⟩

theorem retouched_withoutCell (p : Partition) (row : Bytes) (writer : TxnId) (column : Bytes) :
    p.Retouched (p.withoutCell (Version.key row writer) column) :=
  ⟨rfl, rfl, fun hkey => by rw [columns_withoutCell, if_neg (hkey row writer)]⟩

theorem retouched_stamped (p : Partition) (row : Bytes) (writer : TxnId) (stamp : Stamp) :
    p.Retouched (p.stamped row writer stamp) := by
  unfold stamped
  split
  · exact p.retouched_withCell row writer _ _
  · exact .refl p

theorem retouched_purged (p : Partition) (row : Bytes) (writer : TxnId) :
    p.Retouched (p.purged row writer) :=
  (p.retouched_withoutCell row writer _).trans (retouched_withoutCell _ row writer _)

end Partition

end Mvcc
