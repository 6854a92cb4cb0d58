import Mvcc.Data.ExpiringCache

/-!
# Recalled entries

An entry may be lost at any time; an entry that is recalled is the last one put under its key.
-/

namespace Mvcc.ExpiringCache

variable {κ ν : Type} [DecidableEq κ]

/-- The result of looking `key` up. -/
def remembered? (cache : ExpiringCache κ ν) (key : κ) : Option ν := (cache.get key).1

theorem remembered?_eq (cache : ExpiringCache κ ν) (key : κ) :
    cache.remembered? key =
      if cache.keepsEntries then (slot? cache.slots key).map (·.value) else none := by
  unfold remembered? get
  cases slot? cache.slots key <;> cases cache.keepsEntries <;> simp

theorem slot?_without (slots : List (CacheSlot κ ν)) (key other : κ) :
    slot? (without slots key) other = if other = key then none else slot? slots other := by
  simp only [slot?, without, List.find?_filter]
  by_cases h : other = key
  · rw [if_pos h, List.find?_eq_none]
    intro slot _
    simp [h]
  · rw [if_neg h]
    congr 1
    funext slot
    by_cases hslot : slot.key = other <;> simp [hslot, h]

@[simp] theorem remembered?_new (capacity : Nat) (lifetime : UInt64) (key : κ) :
    (new capacity lifetime : ExpiringCache κ ν).remembered? key = none := by
  simp [remembered?_eq, new, slot?]

@[simp] theorem remembered?_clear (cache : ExpiringCache κ ν) (key : κ) :
    cache.clear.remembered? key = none := by
  simp [remembered?_eq, clear, slot?]

theorem remembered?_eq_some_iff {cache : ExpiringCache κ ν} {key : κ} {value : ν} :
    cache.remembered? key = some value ↔
      cache.keepsEntries ∧ ∃ slot, slot? cache.slots key = some slot ∧ slot.value = value := by
  rw [remembered?_eq]
  by_cases h : cache.keepsEntries <;> simp [h]

theorem remembered?_remove (cache : ExpiringCache κ ν) (key other : κ) :
    (cache.remove key).remembered? other =
      if other = key then none else cache.remembered? other := by
  have hkeeps : (cache.remove key).keepsEntries = cache.keepsEntries := rfl
  rw [remembered?_eq, remembered?_eq, hkeeps, remove, slot?_without]
  by_cases h : other = key <;> simp [h]

/-- Looking a key up drops only an expired entry. -/
theorem remembered?_get (cache : ExpiringCache κ ν) (key other : κ) :
    (cache.get key).2.remembered? other = cache.remembered? other := by
  unfold get
  cases slot? cache.slots key with
  | none => rfl
  | some slot =>
    cases hkeeps : cache.keepsEntries with
    | true => simp
    | false => simp only [remembered?_eq, keepsEntries] at hkeeps ⊢; simp [hkeeps]

theorem slot?_evict {capacity : Nat} {order : List (κ × Nat)} {slots : List (CacheSlot κ ν)}
    {key : κ} {slot : CacheSlot κ ν} (h : slot? (evict capacity order slots).2 key = some slot) :
    slot? slots key = some slot := by
  induction order generalizing slots with
  | nil => exact h
  | cons place order ih =>
    unfold evict at h
    split at h
    · have hrest := ih h
      split at hrest
      · rw [slot?_without] at hrest
        split at hrest
        · cases hrest
        · exact hrest
      · exact hrest
    · exact h

/-- A value recalled after an insertion is the inserted one or was recalled before. -/
theorem remembered?_insert {cache : ExpiringCache κ ν} {key other : κ} {value found : ν}
    (h : (cache.insert key value).remembered? other = some found) :
    other = key ∧ found = value ∨ cache.remembered? other = some found := by
  obtain ⟨hkeeps, slot, hslot, rfl⟩ := remembered?_eq_some_iff.1 h
  have hold := slot?_evict hslot
  rw [slot?, List.find?_append, ← slot?, slot?_without] at hold
  by_cases hother : other = key
  · rw [if_pos hother, Option.none_or, List.find?_singleton, if_pos (by simp [hother])] at hold
    cases hold
    exact .inl ⟨hother, rfl⟩
  · rw [if_neg hother, List.find?_singleton, if_neg (by simpa using Ne.symm hother),
      Option.or_none] at hold
    exact .inr (remembered?_eq_some_iff.2 ⟨hkeeps, slot, hold, rfl⟩)

end Mvcc.ExpiringCache
