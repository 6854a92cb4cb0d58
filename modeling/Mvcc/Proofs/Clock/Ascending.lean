import Mathlib.Algebra.Group.Nat.Defs
import Mvcc.Clock.Oracle

/-!
# Ascending sources

The timestamps of a source ascend until its counter wraps around; its supply is the number of
requests before that. An oracle counts 64-bit words, and refused requests count too.
-/

namespace Mvcc

/-- A source of timestamps that ascends as long as its supply lasts. -/
class AscendingSource (τ : Type) [TimestampSource τ] where
  /-- An upper bound of the returned timestamps. -/
  latest : τ → Timestamp
  /-- How many further requests are answered in ascending order. -/
  supply : τ → Nat
  drawn {s s' : τ} {time : Timestamp} (hs : 0 < supply s)
    (h : TimestampSource.draw s = .ok time s') :
    latest s < time ∧ time ≤ latest s' ∧ supply s ≤ supply s' + 1
  /-- A request that succeeds leaves supply for another. -/
  answered {s s' : τ} {time : Timestamp} (hs : 0 < supply s)
    (h : TimestampSource.draw s = .ok time s') : 0 < supply s'
  refused {s s' : τ} {e : TimestampError} (hs : 0 < supply s)
    (h : TimestampSource.draw s = .error e s') :
    latest s ≤ latest s' ∧ supply s ≤ supply s' + 1

namespace Oracle

/-- How often an oracle can be asked before its counter wraps around. -/
def supply (o : Oracle) : Nat := 2 ^ 64 - 1 - o.counter.toNat

theorem counter_of_next (o : Oracle) :
    match o.next with
    | .ok time o' => time = o.counter + 1 ∧ o'.counter = o.counter + 1 ∧ time ≤ Timestamp.greatest
    | .error _ o' => o'.counter = o.counter + 1 := by
  unfold next
  by_cases hgreatest : Timestamp.greatest < o.count.counter
  · simp only [hgreatest, if_true]
    rfl
  · have hle : o.count.counter ≤ Timestamp.greatest := by simpa using hgreatest
    by_cases hreserved : o.count.counter ≤ o.count.reserved
    · simp only [hgreatest, hreserved, if_true, if_false]
      exact ⟨rfl, rfl, hle⟩
    · simp only [hgreatest, hreserved, if_false]
      cases hstore : o.count.reserve o.count.counter with
      | error e => rfl
      | ok o' =>
        unfold reserve at hstore
        cases hmark : o.count.mark.store (o.count.blockEnd o.count.counter) with
        | error e => simp [hmark, Except.map] at hstore
        | ok mark =>
          simp only [hmark, Except.map, Except.ok.injEq] at hstore
          subst hstore
          exact ⟨rfl, rfl, hle⟩

theorem toNat_counter_succ {o : Oracle} (h : 0 < o.supply) :
    (o.counter + 1).toNat = o.counter.toNat + 1 := by
  unfold supply at h
  rw [UInt64.toNat_add, Nat.mod_eq_of_lt]
  · rfl
  · have hone : (1 : UInt64).toNat = 1 := rfl
    omega

theorem lt_counter_succ {o : Oracle} (h : 0 < o.supply) : o.counter < o.counter + 1 := by
  rw [UInt64.lt_iff_toNat_lt, toNat_counter_succ h]
  omega

theorem supply_of_le {o : Oracle} (h : o.counter ≤ Timestamp.greatest) : 2 ^ 63 ≤ o.supply := by
  have hle := UInt64.le_iff_toNat_le.1 h
  have hgreatest : Timestamp.greatest.toNat = 2 ^ 63 - 1 := rfl
  unfold supply
  omega

theorem supply_le_of_counter {o o' : Oracle} (h : 0 < o.supply)
    (hcounter : o'.counter = o.counter + 1) : o.supply ≤ o'.supply + 1 := by
  have hnat := toNat_counter_succ h
  unfold supply
  rw [hcounter, hnat]
  omega

instance : AscendingSource Oracle where
  latest := counter
  supply := supply
  drawn {o o' time} hs h := by
    have hnext := counter_of_next o
    have hdraw : o.next = .ok time o' := h
    rw [hdraw] at hnext
    obtain ⟨rfl, hcounter, -⟩ := hnext
    exact ⟨lt_counter_succ hs, hcounter ▸ UInt64.le_refl _, supply_le_of_counter hs hcounter⟩
  answered {o o' time} _ h := by
    have hnext := counter_of_next o
    have hdraw : o.next = .ok time o' := h
    rw [hdraw] at hnext
    obtain ⟨htime, hcounter, hle⟩ := hnext
    have hgreatest : o'.counter ≤ Timestamp.greatest := by rwa [hcounter, ← htime]
    exact Nat.lt_of_lt_of_le (by decide) (supply_of_le hgreatest)
  refused {o o' e} hs h := by
    have hcounter := counter_of_next o
    have hdraw : o.next = .error e o' := h
    rw [hdraw] at hcounter
    have hlt := lt_counter_succ hs
    exact ⟨by grind, supply_le_of_counter hs hcounter⟩

end Oracle

end Mvcc
