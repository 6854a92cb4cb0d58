import Mvcc.Data.Word
import Mvcc.Proofs.Schema.Demarcation

/-!
# The order of filters

Filters of committed owners come last, ordered by the owner's own commit timestamp; the others are
ordered by effective begin timestamp. This is a total order. It agrees with the order of demarcation
where the own commit timestamp is the effective one, and not for changes in effect by their root or
by a coordinated commit.
-/

namespace Mvcc.DdlFilter

/-! ## A total order -/

/-- What a filter is ordered by: whether its owner committed, and then when, or else when its root
began. -/
def place (f : DdlFilter) : Bool × Option Timestamp :=
  if f.owner.state = .committed then (true, f.owner.record.commitTime)
  else (false, some f.owner.effectiveBeginTime)

theorem compareTimes_eq (a b : Option Timestamp) : compareTimes a b = Ord.compare a b := by
  cases a <;> cases b <;> rfl

theorem compare_eq_place (f g : DdlFilter) :
    f.compare g = compareLex (compareOn Prod.fst) (compareOn Prod.snd) f.place g.place := by
  unfold compare place compareLex compareOn
  by_cases hf : f.owner.state = .committed
  · by_cases hg : g.owner.state = .committed
    · simp [hf, hg, compareTimes_eq]
    · simp only [hf, hg, if_true, if_false]
      rfl
  · by_cases hg : g.owner.state = .committed
    · simp only [hf, hg, if_true, if_false]
      rfl
    · simp only [hf, hg, if_false]
      rfl

instance : Std.TransCmp compare where
  eq_swap {f g} := by
    rw [compare_eq_place, compare_eq_place]
    exact Std.OrientedCmp.eq_swap
  isLE_trans {f g h} hfg hgh := by
    rw [compare_eq_place] at hfg hgh ⊢
    exact Std.TransCmp.isLE_trans hfg hgh

def AtMost (f g : DdlFilter) : Prop := (f.compare g).isLE = true

variable {f g h : DdlFilter}

theorem AtMost.trans (hfg : f.AtMost g) (hgh : g.AtMost h) : f.AtMost h :=
  Std.TransCmp.isLE_trans hfg hgh

theorem AtMost.antisymm (hfg : f.AtMost g) (hgf : g.AtMost f) : f.compare g = .eq :=
  Std.OrientedCmp.isLE_antisymm hfg hgf

theorem compare_swap (f g : DdlFilter) : g.compare f = (f.compare g).swap :=
  Std.OrientedCmp.eq_swap

theorem atMost_total (f g : DdlFilter) : f.AtMost g ∨ g.AtMost f := by
  unfold AtMost
  rw [compare_swap f g]
  cases f.compare g <;> simp

theorem compare_of_uncommitted (hf : f.owner.state ≠ .committed) (hg : g.owner.state = .committed) :
    f.compare g = .lt := by
  rw [compare, if_neg hf, if_pos hg]

/-! ## Demarcation -/

/-- The answer of a new filter for a transaction. -/
def Admits (owner : View) (txn : TxnId) : Prop := (demarcation owner).any (· < txn) = true

theorem isVisibleBy_new (owner : View) (capacity : Nat) (lifetime : UInt64) (txn : TxnId) :
    ((new owner capacity lifetime).isVisibleBy txn).1 = true ↔ Admits owner txn := by
  rw [isVisibleBy_of_forgotten (ExpiringCache.remembered?_new capacity lifetime txn)]
  rfl

/-- Some transaction may begin after the other change takes effect and before this one does. -/
def TrailsBehind (owner other : View) : Prop :=
  ∃ time, demarcation other = some time ∧ time < Word.greatest ∧
    ∀ later, demarcation owner = some later → time < later

theorem admits_mono_iff {owner other : View} :
    (∀ txn, Admits other txn → Admits owner txn) ↔ ¬ TrailsBehind owner other := by
  constructor
  · rintro hmono ⟨time, htime, hlt, hlater⟩
    cases howner : demarcation owner with
    | none =>
      have hadmits := hmono Word.greatest (by simpa [Admits, htime] using hlt)
      simp [Admits, howner] at hadmits
    | some later =>
      have hadmits := hmono later (by simpa [Admits, htime] using hlater later howner)
      simp [Admits, howner] at hadmits
  · intro hnot txn hadmits
    obtain ⟨time, htime, hbefore⟩ := (Option.any_eq_true _ _).1 hadmits
    have hbefore : time < txn := by simpa using hbefore
    apply Classical.byContradiction
    intro hnone
    have htxn : txn ≤ Word.greatest := UInt64.le_iff_toNat_le.2 (Nat.le_of_lt_succ txn.toNat_lt)
    refine hnot ⟨time, htime, UInt64.lt_of_lt_of_le hbefore htxn, fun later hlater => ?_⟩
    have hle : txn ≤ later := by simpa [Admits, hlater] using hnone
    exact UInt64.lt_of_lt_of_le hbefore hle

/-- The change took effect by its own commit time. -/
def OwnInEffect (owner : View) : Prop :=
  ∃ time, owner.record.commitTime = some time ∧ owner.effectiveCommitTime = some time

/-- A root commits for others when it commits, unless its commit was coordinated elsewhere. -/
theorem ownInEffect_of_root {owner : View} {time : Timestamp} (hroot : owner.ancestors = [])
    (hstate : owner.state = .committed) (htime : owner.record.commitTime = some time)
    (hlocal : owner.record.globalCommitTime = none) : OwnInEffect owner := by
  have hchain : owner.chain = [owner.record] := by rw [View.chain, hroot]
  have hcommitted : owner.effectiveState = .committed :=
    View.effectiveState_eq_committed_iff.2 (by simpa [hchain, View.state] using hstate)
  refine ⟨time, htime, ?_⟩
  rw [View.effectiveCommitTime_eq hcommitted (by simpa [hchain] using hlocal), View.root, hroot]
  exact htime

theorem OwnInEffect.demarcation_eq {owner : View} (h : OwnInEffect owner) :
    demarcation owner = owner.record.commitTime := by
  obtain ⟨time, hown, heffective⟩ := h
  rw [hown]
  exact demarcation_eq_some_iff.2 (.inl heffective)

/-! ## Order and demarcation -/

variable {owner other : View} {capacity capacity' : Nat} {lifetime lifetime' : UInt64}

theorem state_of_committed (h : owner.effectiveState = .committed) : owner.state = .committed :=
  View.state_of_effectiveState h owner.record List.mem_cons_self

theorem compare_new (howner : owner.effectiveState = .committed)
    (hother : other.effectiveState = .committed) :
    (new owner capacity lifetime).compare (new other capacity' lifetime') =
      compareTimes owner.record.commitTime other.record.commitTime := by
  simp only [compare, new, state_of_committed howner, state_of_committed hother, if_true]

/-- A change is ordered no later than another one although it trails behind it. -/
structure Misplaced (owner other : View) : Prop where
  recorded : (compareTimes owner.record.commitTime other.record.commitTime).isLE = true
  trails : TrailsBehind owner other

theorem OwnInEffect.not_misplaced (howner : OwnInEffect owner) (hother : OwnInEffect other) :
    ¬ Misplaced owner other := by
  rintro ⟨hrecorded, time, htime, -, hlater⟩
  obtain ⟨own, hown, -⟩ := id howner
  rw [hother.demarcation_eq] at htime
  rw [hown, htime] at hrecorded
  have hle : own ≤ time := Std.isLE_compare.1 hrecorded
  have hlt : time < own := hlater own (howner.demarcation_eq.trans hown)
  exact absurd hlt (UInt64.not_lt.2 hle)

/-- The comparison is a total preorder on filters, in which committed owners come last. Of two new
filters whose owners are effectively committed, the lesser one admits every transaction that the
greater one admits, exactly unless its change is misplaced. Changes that took effect by their own
commits are never misplaced: they are ordered by commit time. -/
theorem compare_respects_demarcation_iff (f g h : DdlFilter) (owner other : View)
    (capacity capacity' : Nat) (lifetime lifetime' : UInt64)
    (howner : owner.effectiveState = .committed) (hother : other.effectiveState = .committed) :
    (g.compare f = (f.compare g).swap ∧ (f.AtMost g ∨ g.AtMost f) ∧
      (f.AtMost g → g.AtMost f → f.compare g = .eq) ∧ (f.AtMost g → g.AtMost h → f.AtMost h) ∧
      (f.owner.state ≠ .committed → g.owner.state = .committed → f.compare g = .lt)) ∧
    (((new owner capacity lifetime).AtMost (new other capacity' lifetime') →
        ∀ txn, ((new other capacity' lifetime').isVisibleBy txn).1 = true →
          ((new owner capacity lifetime).isVisibleBy txn).1 = true) ↔ ¬ Misplaced owner other) ∧
    (OwnInEffect owner → OwnInEffect other → ¬ Misplaced owner other ∧
      (new owner capacity lifetime).compare (new other capacity' lifetime') =
        compareTimes owner.effectiveCommitTime other.effectiveCommitTime) := by
  have hcompare : (new owner capacity lifetime).compare (new other capacity' lifetime') =
      compareTimes owner.record.commitTime other.record.commitTime := compare_new howner hother
  refine ⟨⟨compare_swap f g, atMost_total f g, fun hfg hgf => hfg.antisymm hgf,
    fun hfg hgh => hfg.trans hgh, compare_of_uncommitted⟩, ?carries, ?own⟩
  case carries =>
    simp only [AtMost, hcompare, isVisibleBy_new, admits_mono_iff]
    constructor
    · intro hmono hmisplaced
      exact hmono hmisplaced.recorded hmisplaced.trails
    · intro hnot hrecorded htrails
      exact hnot ⟨hrecorded, htrails⟩
  case own =>
    intro hown hown'
    refine ⟨hown.not_misplaced hown', ?_⟩
    obtain ⟨time, hrecorded, heffective⟩ := hown
    obtain ⟨time', hrecorded', heffective'⟩ := hown'
    rw [hcompare, hrecorded, hrecorded', heffective, heffective']

/-- A root that committed at 3, and one that committed at 5. -/
def sooner : View := ⟨{ Txn.new 1 1 0 with state := .committed, commitTime := some 3 }, [], false⟩

def later : View := ⟨{ Txn.new 2 2 0 with state := .committed, commitTime := some 5 }, [], false⟩

theorem compare_respects_demarcation_of_roots :
    sooner.effectiveState = .committed ∧ later.effectiveState = .committed ∧
      OwnInEffect sooner ∧ OwnInEffect later ∧
      (new sooner standardCapacity standardLifetime).AtMost
        (new later standardCapacity standardLifetime) ∧
      ∀ txn, ((new later standardCapacity standardLifetime).isVisibleBy txn).1 = true →
        ((new sooner standardCapacity standardLifetime).isVisibleBy txn).1 = true := by
  have hsooner : OwnInEffect sooner := ownInEffect_of_root rfl rfl rfl rfl
  have hlater : OwnInEffect later := ownInEffect_of_root rfl rfl rfl rfl
  obtain ⟨-, hmono, hown⟩ := compare_respects_demarcation_iff (new sooner 0 0) (new later 0 0)
    (new later 0 0) sooner later standardCapacity standardCapacity standardLifetime
    standardLifetime rfl rfl
  obtain ⟨hplaced, hcompare⟩ := hown hsooner hlater
  have hatMost : (new sooner standardCapacity standardLifetime).AtMost
      (new later standardCapacity standardLifetime) := by
    rw [AtMost, hcompare]
    decide
  exact ⟨rfl, rfl, hsooner, hlater, hatMost, hmono.2 hplaced hatMost⟩

/-- Two roots whose commits were coordinated elsewhere, at 5 and at 3. -/
def notedAtFive : View :=
  ⟨{ Txn.new 1 1 0 with state := .committed, globalCommitTime := some 5 }, [], false⟩

def notedAtThree : View :=
  ⟨{ Txn.new 2 2 0 with state := .committed, globalCommitTime := some 3 }, [], false⟩

/-- The filters compare equal, since neither transaction has a commit timestamp of its own; but
transaction 4 is after one change and before the other. -/
theorem compare_of_noted :
    notedAtFive.effectiveState = .committed ∧ notedAtThree.effectiveState = .committed ∧
      (new notedAtFive standardCapacity standardLifetime).compare
        (new notedAtThree standardCapacity standardLifetime) = .eq ∧
      ((new notedAtThree standardCapacity standardLifetime).isVisibleBy 4).1 = true ∧
      ((new notedAtFive standardCapacity standardLifetime).isVisibleBy 4).1 = false := by
  decide

end Mvcc.DdlFilter
