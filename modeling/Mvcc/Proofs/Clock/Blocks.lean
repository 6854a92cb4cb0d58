import Mathlib.Algebra.Order.Floor.Div
import Mvcc.Console.Stand
import Mvcc.Proofs.Clock.MarkFile

/-!
# Blocks of reservations

Successive requests return consecutive timestamps above the mark and store the mark once for each
block. The number of requests therefore determines the number of stores and the mark, up to the
greatest timestamp, where the last block is cut off.
-/

namespace Mvcc

namespace Mark

def Accepts : Mark → Prop
  | .memory cell => cell.failing = false
  | .file kept => kept.IsWritable

/-- How often a mark in memory was stored; a file does not count that. -/
def stores? : Mark → Option Nat
  | .memory cell => some cell.stores
  | .file _ => none

theorem Accepts.exists_store {mark : Mark} (h : mark.Accepts) (value : Timestamp) :
    ∃ mark', mark.store value = .ok mark' ∧ mark'.Accepts ∧
      mark'.stores? = mark.stores?.map (· + 1) := by
  cases mark with
  | memory cell =>
    have hfailing : cell.failing = false := h
    refine ⟨.memory { cell with value := max cell.value value, stores := cell.stores + 1 }, ?_,
      hfailing, rfl⟩
    simp [store, MemoryMark.store, hfailing, Except.map]
  | file kept =>
    have hwritable : kept.IsWritable := h
    have hstore : kept.store value = .ok { kept with content := .bytes (MarkFile.encode value) } :=
      MarkFile.store_eq_ok_iff.2 ⟨hwritable, rfl⟩
    refine ⟨.file { kept with content := .bytes (MarkFile.encode value) }, ?_, .inr ⟨_, rfl⟩, rfl⟩
    simp only [store, hstore, Except.map]

end Mark

namespace Oracle

variable {o : Oracle}

/-! ## A single request -/

theorem toNat_blockEnd (hblock : 1 ≤ o.blockSize) (time : Timestamp) :
    (o.blockEnd time).toNat =
      min (time.toNat + (o.blockSize.toNat - 1)) Timestamp.greatest.toNat := by
  have hless : (o.blockSize - 1).toNat = o.blockSize.toNat - 1 := by
    rw [UInt64.toNat_sub_of_le _ _ hblock]
    rfl
  have hsum := Word.addCapped_toNat time (o.blockSize - 1)
  have hgreatest : Timestamp.greatest.toNat < UInt64.size - 1 := by decide
  rw [hless] at hsum
  show (if Word.addCapped time (o.blockSize - 1) ≤ Timestamp.greatest then
    Word.addCapped time (o.blockSize - 1) else Timestamp.greatest).toNat = _
  split
  · rename_i hle
    have hnat := UInt64.le_iff_toNat_le.1 hle
    omega
  · rename_i hnot
    have hnat := UInt64.lt_iff_toNat_lt.1 (UInt64.not_le.1 hnot)
    omega

theorem next_of_reserved (htop : o.counter + 1 ≤ Timestamp.greatest)
    (hreserved : o.counter + 1 ≤ o.reserved) : o.next = .ok (o.counter + 1) o.count.hand := by
  simp only [next, count, UInt64.not_lt.2 htop, hreserved, if_true, if_false]

/-- The oracle after it reserved a block for the next timestamp and returned that. -/
def extended (o : Oracle) (mark : Mark) : Oracle :=
  { o.count.hand with
    mark := mark
    reserved := o.blockEnd (o.counter + 1)
    reservations := o.reservations + 1 }

theorem next_of_reserve {mark : Mark} (htop : o.counter + 1 ≤ Timestamp.greatest)
    (hreserved : o.reserved < o.counter + 1)
    (hstore : o.mark.store (o.blockEnd (o.counter + 1)) = .ok mark) :
    o.next = .ok (o.counter + 1) (o.extended mark) := by
  have hbeyond : ¬ o.count.counter ≤ o.count.reserved := UInt64.not_le.2 hreserved
  have hwithin : ¬ Timestamp.greatest < o.count.counter := UInt64.not_lt.2 htop
  have hstore' : o.count.mark.store (o.count.blockEnd o.count.counter) = .ok mark := hstore
  simp only [next, hwithin, hbeyond, reserve, hstore', Except.map, if_false]
  rfl

theorem next_of_exhausted (h : Timestamp.greatest < o.counter + 1) :
    o.next = .error .exhausted o.count := by
  simp only [next, count, h, if_true]

/-! ## The account -/

/-- The state of an oracle after `drawn` requests since it was opened on `mark`. Every block was
reserved by one store. -/
structure Accounts (mark : Mark) (start size : UInt64) (drawn : Nat) (o : Oracle) : Prop where
  counter : o.counter.toNat = start.toNat + drawn
  blockSize : o.blockSize = size
  reserved : o.reserved.toNat =
    min (start.toNat + size.toNat * (drawn ⌈/⌉ size.toNat)) Timestamp.greatest.toNat
  reservations : o.reservations = drawn ⌈/⌉ size.toNat
  stores : o.mark.stores? = mark.stores?.map (· + drawn ⌈/⌉ size.toNat)
  durable : o.mark.load = .ok o.reserved
  accepts : o.mark.Accepts

theorem ceilDiv_succ_of_le {drawn size : Nat} (hsize : 0 < size)
    (h : drawn + 1 ≤ size * (drawn ⌈/⌉ size)) : (drawn + 1) ⌈/⌉ size = drawn ⌈/⌉ size := by
  apply Nat.le_antisymm
  · exact (ceilDiv_le_iff_le_mul hsize).2 h
  · exact (gc_mul_ceilDiv hsize).monotone_l (Nat.le_succ drawn)

theorem ceilDiv_succ_of_lt {drawn size : Nat} (hsize : 0 < size)
    (h : size * (drawn ⌈/⌉ size) < drawn + 1) : (drawn + 1) ⌈/⌉ size = drawn ⌈/⌉ size + 1 := by
  have hfull : drawn ≤ size * (drawn ⌈/⌉ size) := (ceilDiv_le_iff_le_mul hsize).1 (Nat.le_refl _)
  apply Nat.le_antisymm
  · apply (ceilDiv_le_iff_le_mul hsize).2
    rw [Nat.mul_succ]
    omega
  · apply Nat.succ_le_of_lt
    apply Nat.lt_of_not_le
    intro hle
    exact Nat.not_le.2 h ((ceilDiv_le_iff_le_mul hsize).1 hle)

theorem accounts_start {mark : Mark} {start : Timestamp} (blockSize : UInt64)
    (hload : mark.load = .ok start) (hstart : start < Timestamp.greatest)
    (haccepts : mark.Accepts) :
    ∃ opened, Oracle.start mark blockSize = .ok opened ∧
      Accounts mark start (max blockSize 1) 0 opened := by
  have hle := Nat.le_of_lt (UInt64.lt_iff_toNat_lt.1 hstart)
  refine ⟨⟨mark, start, start, max blockSize 1, 0, 0⟩, ?_, ?_⟩
  · simp only [Oracle.start, hload, Except.ok_bind, UInt64.not_le.2 hstart, if_false]
    rfl
  · refine ⟨rfl, rfl, ?_, by simp, by simp, hload, haccepts⟩
    simp [hle]

variable {mark : Mark} {start size : UInt64} {drawn : Nat}

theorem Accounts.toNat_next (h : Accounts mark start size drawn o)
    (hroom : start.toNat + drawn ≤ Timestamp.greatest.toNat) :
    (o.counter + 1).toNat = start.toNat + drawn + 1 := by
  have hgreatest : Timestamp.greatest.toNat < 2 ^ 64 - 1 := by decide
  have hone : (1 : UInt64).toNat = 1 := rfl
  rw [UInt64.toNat_add, h.counter, hone, Nat.mod_eq_of_lt]
  omega

theorem Accounts.hand (h : Accounts mark start size drawn o) (hsize : 0 < size.toNat)
    (hroom : start.toNat + drawn < Timestamp.greatest.toNat)
    (hwithin : o.counter + 1 ≤ o.reserved) :
    Accounts mark start size (drawn + 1) o.count.hand := by
  have hcounter := h.toNat_next (Nat.le_of_lt hroom)
  have hreserved := h.reserved
  have hnat := UInt64.le_iff_toNat_le.1 hwithin
  have hblocks : (drawn + 1) ⌈/⌉ size.toNat = drawn ⌈/⌉ size.toNat :=
    ceilDiv_succ_of_le hsize (by omega)
  constructor
  case counter => exact hcounter
  case blockSize => exact h.blockSize
  case reserved => rwa [hblocks]
  case reservations => exact h.reservations.trans hblocks.symm
  case stores => exact hblocks ▸ h.stores
  case durable => exact h.durable
  case accepts => exact h.accepts

theorem Accounts.extend (h : Accounts mark start size drawn o) (hsize : 0 < size.toNat)
    (hroom : start.toNat + drawn < Timestamp.greatest.toNat)
    (hbeyond : o.reserved < o.counter + 1) :
    ∃ mark', o.mark.store (o.blockEnd (o.counter + 1)) = .ok mark' ∧
      Accounts mark start size (drawn + 1) (o.extended mark') := by
  have hcounter := h.toNat_next (Nat.le_of_lt hroom)
  have hreserved := h.reserved
  have hnat := UInt64.lt_iff_toNat_lt.1 hbeyond
  have hblocks : (drawn + 1) ⌈/⌉ size.toNat = drawn ⌈/⌉ size.toNat + 1 :=
    ceilDiv_succ_of_lt hsize (by omega)
  have hfull : drawn ≤ size.toNat * (drawn ⌈/⌉ size.toNat) :=
    (ceilDiv_le_iff_le_mul hsize).1 (Nat.le_refl _)
  have hend := toNat_blockEnd (UInt64.le_iff_toNat_le.2 (h.blockSize ▸ hsize)) (o.counter + 1)
  rw [h.blockSize, hcounter] at hend
  have hraised : o.reserved ≤ o.blockEnd (o.counter + 1) := by
    rw [UInt64.le_iff_toNat_le]
    omega
  obtain ⟨mark', hstore, haccepts, hstores⟩ := h.accepts.exists_store (o.blockEnd (o.counter + 1))
  refine ⟨mark', hstore, ?_⟩
  constructor
  case counter => exact hcounter
  case blockSize => exact h.blockSize
  case reserved =>
    show (o.blockEnd (o.counter + 1)).toNat = _
    rw [hend, hblocks, Nat.mul_succ]
    omega
  case reservations =>
    show o.reservations + 1 = _
    rw [hblocks, h.reservations]
  case stores =>
    show mark'.stores? = _
    rw [hblocks, hstores, h.stores, Option.map_map]
    rfl
  case durable => exact Mark.load_of_store h.durable hraised hstore
  case accepts => exact haccepts

/-- A request below the greatest timestamp returns the next timestamp and preserves the account. -/
theorem Accounts.next (h : Accounts mark start size drawn o) (hsize : 0 < size.toNat)
    (hroom : start.toNat + drawn < Timestamp.greatest.toNat) :
    ∃ o', o.next = .ok (o.counter + 1) o' ∧ Accounts mark start size (drawn + 1) o' := by
  have hcounter := h.toNat_next (Nat.le_of_lt hroom)
  have htop : o.counter + 1 ≤ Timestamp.greatest := by
    rw [UInt64.le_iff_toNat_le]
    omega
  by_cases hwithin : o.counter + 1 ≤ o.reserved
  · exact ⟨_, next_of_reserved htop hwithin, h.hand hsize hroom hwithin⟩
  · have hbeyond := UInt64.not_le.1 hwithin
    obtain ⟨mark', hstore, hextended⟩ := h.extend hsize hroom hbeyond
    exact ⟨_, next_of_reserve htop hbeyond hstore, hextended⟩

theorem Accounts.drawAll (h : Accounts mark start size drawn o) (hsize : 0 < size.toNat)
    (count : Nat) (hroom : start.toNat + drawn + count ≤ Timestamp.greatest.toNat) :
    ∃ o', OracleStand.drawAll count o =
        ((List.range' (start.toNat + drawn + 1) count).map fun time => .ok (.ofNat time), o') ∧
      Accounts mark start size (drawn + count) o' := by
  induction count generalizing drawn o with
  | zero => exact ⟨o, rfl, h⟩
  | succ count ih =>
    obtain ⟨o₁, hnext, h₁⟩ := h.next hsize (by omega)
    obtain ⟨o', hrest, h'⟩ := ih h₁ (by omega)
    have htime : o.counter + 1 = .ofNat (start.toNat + drawn + 1) := by
      rw [← h.toNat_next (by omega), UInt64.ofNat_toNat]
    refine ⟨o', ?_, by rwa [Nat.add_right_comm] at h'⟩
    simp only [OracleStand.drawAll, hnext, hrest, htime]
    rfl

/-- Open an oracle on any mark below the greatest timestamp, with a store that succeeds, and draw
timestamps. They are the ones above the mark, without gaps and in order. Every block took one store,
and the stored mark is the reserved bound: the end of the last block, cut off at the greatest
timestamp. A request after the greatest timestamp is refused and leaves the mark unchanged. The
machine-word sums and difference of the next request are those of the naturals, so none of them
wraps. -/
theorem drawAll_accounts (mark : Mark) (start blockSize : UInt64) (count : Nat)
    (hload : mark.load = .ok start) (hstart : start < Timestamp.greatest)
    (haccepts : mark.Accepts) (hcount : count ≤ Timestamp.greatest.toNat - start.toNat) :
    let size := max blockSize.toNat 1
    ∃ opened o, Oracle.start mark blockSize = .ok opened ∧
      OracleStand.drawAll count opened =
        ((List.range' (start.toNat + 1) count).map fun time => .ok (.ofNat time), o) ∧
      o.reservations = count ⌈/⌉ size ∧ o.mark.stores? = mark.stores?.map (· + count ⌈/⌉ size) ∧
      o.mark.load = .ok o.reserved ∧
      o.reserved.toNat = min (start.toNat + size * (count ⌈/⌉ size)) Timestamp.greatest.toNat ∧
      (start.toNat + count = Timestamp.greatest.toNat → ∃ o', o.next = .error .exhausted o' ∧
        o'.mark = o.mark ∧ o'.reserved = o.reserved ∧ o'.reservations = o.reservations) ∧
      (o.counter + 1).toNat = start.toNat + count + 1 ∧
      (o.blockSize - 1).toNat = size - 1 ∧
      (o.blockEnd (o.counter + 1)).toNat =
        min (start.toNat + count + 1 + (size - 1)) Timestamp.greatest.toNat := by
  intro size
  have hnat := UInt64.lt_iff_toNat_lt.1 hstart
  have hroom : start.toNat + count ≤ Timestamp.greatest.toNat := by omega
  have htoNat : (max blockSize 1).toNat = size := Word.toNat_max blockSize 1
  have hsize : 1 ≤ max blockSize 1 := by
    rw [UInt64.le_iff_toNat_le, htoNat]
    exact Nat.le_max_right _ _
  obtain ⟨opened, hopened, haccounts⟩ := accounts_start blockSize hload hstart haccepts
  obtain ⟨o, hdrawn, h⟩ := haccounts.drawAll (UInt64.le_iff_toNat_le.1 hsize) count (by omega)
  rw [Nat.zero_add] at h
  have hblockSize : o.blockSize.toNat = size := by rw [h.blockSize, htoNat]
  have hcounter := h.toNat_next hroom
  have hend := toNat_blockEnd (h.blockSize ▸ hsize) (o.counter + 1)
  rw [hcounter, hblockSize] at hend
  refine ⟨opened, o, hopened, hdrawn, htoNat ▸ h.reservations, htoNat ▸ h.stores, h.durable,
    htoNat ▸ h.reserved, ?exhausted, hcounter, ?less, hend⟩
  case exhausted =>
    intro hlast
    have hbeyond : Timestamp.greatest < o.counter + 1 := by
      rw [UInt64.lt_iff_toNat_lt]
      omega
    exact ⟨o.count, next_of_exhausted hbeyond, rfl, rfl, rfl⟩
  case less =>
    rw [UInt64.toNat_sub_of_le _ _ (h.blockSize ▸ hsize), hblockSize]
    rfl

/-- Three timestamps are left, and blocks are of two. The second block is cut off after the greatest
timestamp, which it begins with. -/
theorem drawAll_accounts_atTop :
    let mark := Mark.memory (.startingAt 0x7FFFFFFFFFFFFFFC)
    mark.load = .ok 0x7FFFFFFFFFFFFFFC ∧ mark.Accepts ∧
      ∃ opened o, Oracle.start mark 2 = .ok opened ∧
        OracleStand.drawAll 3 opened =
          ([.ok 0x7FFFFFFFFFFFFFFD, .ok 0x7FFFFFFFFFFFFFFE, .ok 0x7FFFFFFFFFFFFFFF], o) ∧
        o.reservations = 2 ∧ o.mark.stores? = some 2 ∧ o.mark.load = .ok o.reserved ∧
        o.reserved.toNat = Timestamp.greatest.toNat ∧
        ∃ o', o.next = .error .exhausted o' ∧ o'.mark = o.mark := by
  intro mark
  have haccepts : mark.Accepts := rfl
  obtain ⟨opened, o, hopened, hdrawn, hreservations, hstores, hload, hreserved, hexhausted, -⟩ :=
    drawAll_accounts mark 0x7FFFFFFFFFFFFFFC 2 3 rfl (by decide) haccepts (by decide)
  obtain ⟨o', hnext, hmark, -⟩ := hexhausted rfl
  exact ⟨rfl, haccepts, opened, o, hopened, hdrawn, hreservations, hstores, hload, hreserved, o',
    hnext, hmark⟩

end Oracle

end Mvcc
