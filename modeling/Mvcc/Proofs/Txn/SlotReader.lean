import Mvcc.Proofs.Data.Except
import Mvcc.Txn.SlotReader

/-!
# Bounds of slot reads

The length is checked before bytes are taken. So the reader agrees with the decoder on all bytes,
and never reads past the end.
-/

namespace Mvcc.SlotReader

variable {α β : Type}

/-! ## Single steps -/

theorem bind_of_ok {read : SlotReader α} {value : α} {raw rest : Bytes}
    (h : read raw = .ok (value, rest)) (next : α → SlotReader β) :
    (read >>= next) raw = next value rest := by
  show (read raw >>= fun found => next found.1 found.2) = _
  rw [h]
  rfl

theorem bind_of_error {read : SlotReader α} {stop : ReadStop} {raw : Bytes}
    (h : read raw = .error stop) (next : α → SlotReader β) :
    (read >>= next) raw = .error stop := by
  show (read raw >>= fun found => next found.1 found.2) = _
  rw [h]
  rfl

theorem read_make {read : SlotReader α} {decoded : Except SlotFault α} {raw : Bytes}
    (h : (read raw).map (·.1) = decoded.mapError .refused) (make : α → β) :
    ((read >>= fun value => pure (make value)) raw).map (·.1) =
      (decoded >>= fun value => pure (make value)).mapError .refused := by
  cases hread : read raw with
  | error stop =>
    rw [hread] at h
    rw [bind_of_error hread]
    cases decoded with
    | error fault =>
      cases h
      rfl
    | ok value => cases h
  | ok found =>
    rw [hread] at h
    rw [bind_of_ok hread]
    cases decoded with
    | error fault => cases h
    | ok value =>
      cases h
      rfl

theorem left_bind (next : Nat → SlotReader α) (raw : Bytes) :
    (left >>= next) raw = next raw.length raw := rfl

theorem ask_bind {count : Nat} {raw : Bytes} (h : count ≤ raw.length)
    (next : Bytes → SlotReader α) :
    (ask count >>= next) raw = next (raw.take count) (raw.drop count) :=
  bind_of_ok (if_neg (by omega)) next

theorem firstOf_apply {value : Bytes} (h : 0 < value.length) (raw : Bytes) :
    firstOf value raw = .ok (value.headD 0, raw) := by
  cases value with
  | nil => simp at h
  | cons byte rest => rfl

theorem wordOf_apply {value : Bytes} (h : value.length = 8) (raw : Bytes) :
    wordOf value raw = .ok (BigEndian.toWord value, raw) := by
  unfold wordOf
  rw [if_neg (by omega), List.take_of_length_le (by omega)]

theorem isolationOf_apply {value : Bytes} (h : 0 < value.length) (raw : Bytes) :
    isolationOf value raw = ofDecoded (Slot.decodeIsolation value) raw := by
  unfold isolationOf Slot.decodeIsolation
  rw [bind_of_ok (firstOf_apply h raw)]
  dsimp only
  cases Isolation.ofCode? (value.headD 0) <;> rfl

theorem option_mapM_apply {read : Bytes → SlotReader α} {decode : Bytes → Except SlotFault α}
    {value : Option Bytes} {raw : Bytes}
    (h : ∀ bytes, value = some bytes → read bytes raw = ofDecoded (decode bytes) raw) :
    value.mapM read raw = ofDecoded (value.mapM decode) raw := by
  cases value with
  | none => rfl
  | some bytes =>
    show (read bytes >>= fun found => pure (some found)) raw = _
    have hdecoded := h bytes rfl
    cases hresult : decode bytes with
    | error fault =>
      rw [hresult] at hdecoded
      rw [bind_of_error hdecoded]
      simp [hresult, ofDecoded, Functor.map, Except.map]
    | ok found =>
      rw [hresult] at hdecoded
      rw [bind_of_ok hdecoded]
      simp [hresult, ofDecoded, Functor.map, Except.map]
      rfl

theorem option_mapM_pure (make : Bytes → α) (value : Option Bytes) :
    value.mapM (fun bytes => (.ok (make bytes) : Except SlotFault α)) = .ok (value.map make) := by
  cases value <;> rfl

/-! ## The core slot -/

theorem optional_apply (id : TxnId) (width : Nat) (raw : Bytes) :
    optional id width raw = (Slot.takeOptional id width raw).mapError .refused := by
  cases raw with
  | nil => rfl
  | cons tag rest =>
    have hbyte : byte (tag :: rest) = .ok (tag, rest) := rfl
    unfold optional
    rw [left_bind, if_neg (by simp), bind_of_ok hbyte, Slot.takeOptional]
    by_cases hzero : tag = 0
    · rw [if_pos hzero, if_pos hzero]
      rfl
    · rw [if_neg hzero, if_neg hzero]
      by_cases hpresent : tag = 1
      · rw [if_pos hpresent, if_pos hpresent, left_bind]
        by_cases hwidth : width ≤ rest.length
        · rw [if_pos hwidth, if_pos hwidth, ask_bind hwidth]
          rfl
        · rw [if_neg hwidth, if_neg hwidth]
          rfl
      · rw [if_neg hpresent, if_neg hpresent]
        rfl

theorem length_of_takeOptional {id : TxnId} {width : Nat} {raw rest value : Bytes}
    (h : Slot.takeOptional id width raw = .ok (some value, rest)) : value.length = width := by
  cases raw with
  | nil => cases h
  | cons tag tail =>
    simp only [Slot.takeOptional] at h
    split at h
    · cases h
    · split at h
      · split at h
        · cases h
          rw [List.length_take]
          omega
        · cases h
      · cases h

theorem optional_bind {id : TxnId} {width : Nat} {raw : Bytes}
    {look : Bytes → SlotReader α} {decode : Bytes → Except SlotFault α}
    (hlook : ∀ value raw, value.length = width → look value raw = ofDecoded (decode value) raw)
    (next : Option α → SlotReader β) :
    (optional id width >>= fun value => value.mapM look >>= next) raw =
      match Slot.takeOptional id width raw with
      | .error fault => .error (.refused fault)
      | .ok (value, rest) =>
        match value.mapM decode with
        | .error fault => .error (.refused fault)
        | .ok value => next value rest := by
  have hoptional := optional_apply id width raw
  cases htaken : Slot.takeOptional id width raw with
  | error fault =>
    rw [htaken] at hoptional
    exact bind_of_error hoptional _
  | ok taken =>
    obtain ⟨value, rest⟩ := taken
    rw [htaken] at hoptional
    rw [bind_of_ok hoptional]
    have hvalue : value.mapM look rest = ofDecoded (value.mapM decode) rest := by
      refine option_mapM_apply fun bytes hbytes => hlook bytes rest ?_
      exact length_of_takeOptional (hbytes ▸ htaken)
    cases hdecoded : value.mapM decode with
    | error fault =>
      rw [hdecoded] at hvalue
      simpa only [hdecoded] using bind_of_error hvalue next
    | ok found =>
      rw [hdecoded] at hvalue
      simpa only [hdecoded] using bind_of_ok hvalue next

/-- Reading a core slot from the front is `decodeCore`. -/
theorem core_read (id : TxnId) (raw : Bytes) :
    (core id raw).map (·.1) = (Slot.decodeCore id raw).mapError .refused := by
  have hword : ∀ value raw, value.length = 8 →
      wordOf value raw = ofDecoded (.ok (BigEndian.toWord value)) raw := by
    intro value raw hlength
    exact wordOf_apply hlength raw
  have hfirst : ∀ value raw, value.length = 1 →
      firstOf value raw = ofDecoded (.ok (value.headD 0)) raw := by
    intro value raw hlength
    exact firstOf_apply (by omega) raw
  have hlevel : ∀ value raw, value.length = 1 →
      isolationOf value raw = ofDecoded (Slot.decodeIsolation value) raw := by
    intro value raw hlength
    exact isolationOf_apply (by omega) raw
  simp only [Slot.decodeCore, core]
  rw [left_bind]
  by_cases hshort : raw.length < 8
  · rw [if_pos hshort, if_pos hshort]
    rfl
  · rw [if_neg hshort, if_neg hshort, ask_bind (by omega),
      bind_of_ok (wordOf_apply (by rw [List.length_take]; omega) _), optional_bind hword]
    cases Slot.takeOptional id 8 (raw.drop 8) with
    | error fault => rfl
    | ok parent =>
      simp only [Except.ok_bind, option_mapM_pure]
      rw [optional_bind hfirst]
      cases Slot.takeOptional id 1 parent.2 with
      | error fault => rfl
      | ok additive =>
        simp only [Except.ok_bind, option_mapM_pure]
        rw [optional_bind hlevel]
        cases Slot.takeOptional id 1 additive.2 with
        | error fault => rfl
        | ok isolation =>
          simp only [Except.ok_bind]
          cases isolation.1.mapM Slot.decodeIsolation with
          | error fault => rfl
          | ok level =>
            rw [Option.map_map]
            rfl

/-! ## The destinations slot -/

theorem names_read (count : Nat) (raw : Bytes) :
    (names count raw).map (·.1) = (Slot.takeNames count raw).mapError .refused := by
  induction count generalizing raw with
  | zero => rfl
  | succ count ih =>
    simp only [names, Slot.takeNames]
    by_cases hshort : raw.length < 2
    · have hname : name raw = .error (.refused .destinationsTruncated) := by
        unfold name
        rw [left_bind, if_pos hshort]
        rfl
      rw [bind_of_error hname, if_pos hshort]
      rfl
    · have htwo : 2 ≤ raw.length := by omega
      by_cases hcut : (raw.drop 2).length < BigEndian.decode (raw.take 2)
      · have hname : name raw = .error (.refused .destinationsTruncated) := by
          unfold name
          rw [left_bind, if_neg hshort, ask_bind htwo, left_bind, if_pos hcut]
          rfl
        rw [bind_of_error hname, if_neg hshort, if_pos hcut]
        rfl
      · have hname : name raw = ofDecoded ((Text.ofUtf8 ((raw.drop 2).take
            (BigEndian.decode (raw.take 2)))).mapError .destinationText)
            ((raw.drop 2).drop (BigEndian.decode (raw.take 2))) := by
          unfold name
          rw [left_bind, if_neg hshort, ask_bind htwo, left_bind, if_neg hcut,
            ask_bind (by omega)]
        rw [if_neg hshort, if_neg hcut]
        cases htext : (Text.ofUtf8 ((raw.drop 2).take
            (BigEndian.decode (raw.take 2)))).mapError SlotFault.destinationText with
        | error fault =>
          rw [htext] at hname
          rw [bind_of_error hname]
          rfl
        | ok text =>
          rw [htext] at hname
          rw [bind_of_ok hname, Except.ok_bind]
          exact read_make (ih _) (text :: ·)

theorem destinations_read (raw : Bytes) :
    (destinations raw).map (·.1) = (Slot.decodeDestinations raw).mapError .refused := by
  simp only [destinations, Slot.decodeDestinations]
  rw [left_bind]
  by_cases hshort : raw.length < 2
  · rw [if_pos hshort, if_pos hshort]
    rfl
  · rw [if_neg hshort, if_neg hshort, ask_bind (by omega)]
    exact read_make (names_read _ _) SortedSet.ofList

end Mvcc.SlotReader
