import Mvcc.Proofs.Txn.Agreement
import Mvcc.Proofs.Txn.Ascent
import Mvcc.Proofs.Txn.Chain
import Mvcc.Proofs.Txn.Run

/-!
# Depth of chains

A record keeps its parent, so the length of a chain is fixed when its lowest member is created.
Creation requires that the parent resolves; resolving the child takes one more record.
-/

namespace Mvcc

namespace Register

variable {τ : Type} {r r' : Register τ} {id : TxnId} {time : Timestamp}

/-- The chain from a parent to its root has `height` records; without a parent it has none. -/
def Reaches (r : Register τ) : Option TxnId → Nat → Prop
  | none, height => height = 0
  | some id, height => r.Ascends id height

/-- A child stands one record above its parent, in later states too. -/
theorem Reaches.child {parent : Option TxnId} {height : Nat} (h : r.Reaches parent height)
    (hendures : r.Endures r') {txn : Txn} (hrecord : r'.records id = some txn)
    (hparent : txn.parent = parent) : r'.Ascends id (height + 1) := by
  cases parent with
  | none =>
    cases h
    exact .root hrecord hparent
  | some above => exact .child hrecord hparent (Ascends.of_endures h hendures)

theorem Adopted.endures (h : r.Adopted id time r') : r.Endures r' := by
  cases h with
  | @intro txn hrecord hstate =>
    intro other found hfound
    by_cases hother : other = id
    · subst hother
      cases hrecord.symm.trans hfound
      exact ⟨_, if_pos rfl, rfl⟩
    · exact ⟨found, (if_neg hother).trans hfound, rfl⟩

def AllActive (r : Register τ) : Prop := ∀ ⦃id txn⦄, r.Answers id txn → txn.state = .active

theorem AllActive.of_begun [TimestampSource τ] (h : r.AllActive) {parent : Option TxnId}
    {isolation : Option Isolation} {additive : Option Bool} {txn : Txn}
    (hbegun : r.Begun parent isolation additive txn r') : r'.AllActive := by
  obtain ⟨r₁, source, hremembers, -, htxn, rfl⟩ := hbegun
  rintro other found (hrecalled | hstanding)
  · exact h (hremembers.answers (.inl hrecalled))
  · rw [standing?_put] at hstanding
    split at hstanding
    · cases hstanding
      refine current_active_iff.2 ⟨htxn ▸ rfl, ?_⟩
      have hnow : (r₁.withSource source).now = txn.keepAlive := by
        rw [htxn, hremembers.1]
        rfl
      simp [isSilent, hnow, Word.subFloored]
    · exact h (hremembers.answers (.inr hstanding))

end Register

namespace Ledger

open TxnM

variable {τ : Type} [TimestampSource τ] [AscendingSource τ] {s : Ledger τ}

theorem Operation.Effect.endures {op : Operation} {r r' : Register τ} (heffect : op.Effect r r')
    (h : r.Sound) (hsupply : op.Supplied r) : r.Endures r' := by
  cases hlocal : op.isLocal with
  | true => exact (heffect.advances h hsupply hlocal).2.endures
  | false =>
    cases op with
    | recordGlobalCommit id time =>
      rcases heffect with rfl | hadopted
      · exact fun _ txn hrecord => ⟨txn, hrecord, rfl⟩
      · exact hadopted.endures
    | _ => cases hlocal

/-- Records persist in every run. -/
theorem Ready.endures {ops : List Operation} (h : Ready ops s) :
    s.register.Endures (s.run ops).register := by
  induction ops generalizing s with
  | nil => exact fun _ txn hrecord => ⟨txn, hrecord, rfl⟩
  | cons op ops ih =>
    have hop := h.effect.endures h.sound h.operation_supplied
    exact hop.trans (ih h.after)

/-- A child of `parent` has a chain within the bound. -/
def HasRoom (s : Ledger τ) (parent : Option TxnId) : Prop :=
  ∀ id, parent = some id →
    ∃ view s', View.resolve id s = .ok view s' ∧ view.chain.length < longestChain

/-- A parent accepted by `create` has room exactly if its chain is below the bound. -/
theorem create_height (hs : s.Legible) (hsound : s.register.Sound) (parent : Option TxnId)
    (isolation : Option Isolation) (additive : Option Bool) :
    Ends (create parent isolation additive) s
      (fun _ _ => ∃ height, s.register.Reaches parent height ∧
        (height < longestChain ↔ s.HasRoom parent))
      fun _ _ => True := by
  cases parent with
  | none =>
    refine .of_forall (fun _ _ _ => ⟨0, rfl, ?_⟩) fun _ _ _ => trivial
    exact iff_of_true (by decide) fun _ h => by cases h
  | some above =>
    rw [create, Option.mapM_some, ends_bind, ends_map, checkParent, ends_bind]
    refine .of_forall (fun view s₁ hview => ?_) fun _ _ _ => trivial
    have hchain := ((resolve_ends hs).of_ok hview).2.ascends hsound
    split
    · trivial
    · refine ends_pure.2 (.of_forall (fun _ _ _ => ⟨view.chain.length, hchain, ?_⟩)
        fun _ _ _ => trivial)
      constructor
      · rintro hlt _ ⟨⟩
        exact ⟨view, s₁, hview, hlt⟩
      · intro hroom
        obtain ⟨view', s', hview', hlt⟩ := hroom above rfl
        cases hview.symm.trans hview'
        exact hlt

/-! ## Chains beyond the bound -/

/-- Nothing keeps the ledger from writing. -/
structure Writable (s : Ledger τ) : Prop where
  available : s.partition.unavailable = false
  unlimited : s.quota = none

omit [TimestampSource τ] [AscendingSource τ] in
theorem Writable.of_alike {s' : Ledger τ} (h : s.Writable) (halike : s.Alike s') : s'.Writable :=
  ⟨halike.partition ▸ h.available, halike.quota.trans h.unlimited⟩

omit [TimestampSource τ] [AscendingSource τ] in
theorem putSlot_writable (h : s.Writable) (id : TxnId) (slot value : Bytes) :
    Ends (putSlot id slot value) s (fun _ s' => s'.Writable) fun _ _ => False := by
  have hput : s.partition.put (Slot.rowKey id) slot value =
      .ok (s.partition.withCell (Slot.rowKey id) slot value) :=
    Partition.serve_of_available h.available _
  simp only [Ends, putSlot, h.unlimited, hput]
  exact ⟨h.available, rfl⟩

omit [AscendingSource τ] in
/-- On a writable ledger `create` succeeds if the source gives a timestamp and the parent is
accepted. -/
theorem create_writable {parent : Option TxnId} (h : s.Writable)
    (hparent : Ends (parent.mapM checkParent) s (fun _ s' => s.Alike s') fun _ _ => False)
    {time : Timestamp} {source : τ} (hdraw : TimestampSource.draw s.source = .ok time source)
    (isolation : Option Isolation) (additive : Option Bool) :
    Ends (create parent isolation additive) s (fun _ s' => s'.Writable) fun _ _ => False := by
  simp only [create, ends_bind]
  refine hparent.mono (fun _ s₁ halike => ?_) fun _ _ h => h
  have hdrawn : Ends draw s₁ (fun _ s' => s'.Writable) fun _ _ => False := by
    rw [Ends, draw, halike.source, hdraw]
    exact ⟨(h.of_alike halike).available, (h.of_alike halike).unlimited⟩
  refine hdrawn.mono (fun time s₂ h₂ => ?_) fun _ _ h => h
  simp only [ends_get]
  refine (putSlot_writable h₂ _ _ _).mono (fun _ s₃ h₃ => ?_) fun _ _ h => h
  refine (putSlot_writable h₃ _ _ _).mono (fun _ s₄ h₄ => ?_) fun _ _ h => h
  refine (putSlot_writable h₄ _ _ _).mono (fun _ s₅ h₅ => ?_) fun _ _ h => h
  exact ⟨h₅.available, h₅.unlimited⟩

/-- The source answers `count` requests in a row. -/
def answersAll : Nat → τ → Bool
  | 0, _ => true
  | left + 1, source =>
    match TimestampSource.draw source with
    | .ok _ source => answersAll left source
    | .error _ _ => false

/-- Every transaction is active, the lowest one has height `height`, and the source can answer
`left` further begins. -/
structure Line (s : Ledger τ) (lowest : Option TxnId) (height left : Nat) : Prop where
  legible : s.Legible
  sound : s.register.Sound
  writable : s.Writable
  active : s.register.AllActive
  reaches : s.register.Reaches lowest height
  supplied : left ≤ AscendingSource.supply s.source
  answered : answersAll left s.source = true

theorem line_new {name : String} {source : τ} {now : UInt64} {settings : TxnSettings} {left : Nat}
    (hsupplied : left ≤ AscendingSource.supply source) (hanswered : answersAll left source = true) :
    (new name source now settings).Line none 0 left where
  legible _ := .inl rfl
  sound := sound_new
  writable := ⟨rfl, rfl⟩
  active id txn hanswer := by
    rcases hanswer with hrecalled | hstanding
    · cases (recalled_new id).symm.trans hrecalled
    · rw [Register.standing?, records_new] at hstanding
      cases hstanding
  reaches := rfl
  supplied := hsupplied
  answered := hanswered

namespace Line

variable {lowest : Option TxnId} {height left : Nat}

theorem checkParent (h : s.Line lowest height left) (hle : height ≤ longestChain) :
    Ends (lowest.mapM checkParent) s (fun _ s' => s.Alike s') fun _ _ => False := by
  cases lowest with
  | none => exact .refl s
  | some id =>
    have hresolve := resolve_of_rooted h.sound (serving_iff.2 h.writable.available)
      ⟨height, hle, h.reaches⟩ (.refl h.legible)
    rw [Option.mapM_some, ends_map, Ledger.checkParent, ends_bind]
    refine ((resolve_alike s id).and hresolve).mono ?_ fun _ _ h => h.2
    rintro view s₁ ⟨halike, hchain, -⟩
    have hstate : view.effectiveState ≠ .rolledBack := by
      intro hrolledBack
      obtain ⟨txn, hmember, hstate⟩ := View.effectiveState_eq_rolledBack_iff.1 hrolledBack
      obtain ⟨other, hanswer⟩ := hchain.answers_of_mem txn hmember
      cases (h.active hanswer).symm.trans hstate
    rw [if_neg hstate]
    exact halike

/-- A child extends the line by one, even beyond the bound. -/
theorem create (h : s.Line lowest height (left + 1)) (hle : height ≤ longestChain) :
    ∃ txn s', Ledger.create lowest none none s = .ok txn s' ∧
      s'.Line (some txn.id) (height + 1) left := by
  have hsupply : 0 < AscendingSource.supply s.source :=
    Nat.lt_of_lt_of_le (Nat.succ_pos _) h.supplied
  have hfresh := h.sound.fresh hsupply
  have hanswered := h.answered
  unfold answersAll at hanswered
  split at hanswered
  · rename_i time next hdraw
    obtain ⟨txn, s', hcreate, hwritable⟩ :=
      (create_writable h.writable (h.checkParent hle) hdraw none none).exists_ok
    obtain ⟨hlegible, hbegun⟩ := (create_begins h.legible hfresh lowest none none).of_ok hcreate
    have heffect : (Operation.create lowest none none).Effect s.register s'.register := by
      have hafter : s.after (.create lowest none none) = s' := after_of_ok rfl hcreate
      exact hafter ▸ (effect_after h.legible _ fun _ => hfresh).2
    have hendures := heffect.endures h.sound fun _ => hsupply
    have hactive := h.active.of_begun hbegun
    obtain ⟨r₁, source, hremembers, hdraw', htxn, hregister⟩ := hbegun
    have hsource : s'.source = next := by
      rw [hremembers.1] at hdraw'
      cases hdraw.symm.trans hdraw'
      exact congrArg Register.source hregister
    refine ⟨txn, s', hcreate, hlegible, heffect.sound h.sound fun _ => hsupply, hwritable, hactive,
      ?_, ?_, hsource ▸ hanswered⟩
    · exact h.reaches.child hendures (records_of_put hregister) (congrArg Txn.parent htxn)
    · have hdrawn : AscendingSource.supply s.source ≤ AscendingSource.supply next + 1 :=
        (AscendingSource.drawn hsupply hdraw).2.2
      rw [hsource]
      exact Nat.le_of_succ_le_succ (Nat.le_trans h.supplied hdrawn)
  · cases hanswered

/-- As long as the source answers, a line grows beyond the bound. -/
theorem exists_beyond (h : s.Line lowest height left) (hle : height ≤ longestChain)
    (hleft : height + left = longestChain + 1) :
    ∃ ops parent txn s', Ledger.create parent none none (s.run ops) = .ok txn s' ∧
      s'.Line (some txn.id) (longestChain + 1) 0 := by
  induction left generalizing s lowest height with
  | zero => exact absurd hle (by omega)
  | succ left ih =>
    obtain ⟨txn, s', hcreate, hline⟩ := h.create hle
    by_cases hlast : left = 0
    · subst hlast
      refine ⟨[], lowest, txn, s', hcreate, ?_⟩
      rwa [← hleft]
    · obtain ⟨ops, parent, txn', s'', hcreate', hline'⟩ := ih hline (by omega) (by omega)
      refine ⟨.create lowest none none :: ops, parent, txn', s'', ?_, hline'⟩
      rwa [run_cons, after_of_ok rfl hcreate]

theorem resolve_ends {id : TxnId} (h : s.Line (some id) height left) (hlt : longestChain < height) :
    Ends (View.resolve id) s (fun _ _ => False) fun e _ => e = .malformed (.tooDeep id) := by
  have hserving := serving_iff.2 h.writable.available
  refine (resolve_of_ascends h.sound hserving h.reaches (.refl h.legible)).mono ?_ ?_
  · exact fun _ _ hle => Nat.not_le_of_lt hlt hle
  · exact fun _ _ h => h.1

end Line

/-! ## Created transactions -/

/-- In every run, with any clock and global commits, as long as the source does not wrap: a created
transaction resolves, then and in every later state with available storage, exactly if it was
created as a root or below a chain shorter than the bound. Otherwise it is too deep, which is the
only possible error. -/
theorem resolve_created_iff (name : String) (source : τ) (now : UInt64) (settings : TxnSettings)
    (before later : List Operation) (parent : Option TxnId) (isolation : Option Isolation)
    (additive : Option Bool) (txn : Txn) (s : Ledger τ)
    (hample : Ample (new name source now settings)
      (before ++ .create parent isolation additive :: later))
    (hcreate : create parent isolation additive (run (new name source now settings) before) =
      .ok txn s)
    (havailable : (s.run later).partition.unavailable = false) :
    ((∃ view s', View.resolve txn.id (s.run later) = .ok view s') ↔
      (run (new name source now settings) before).HasRoom parent) ∧
    ∀ e s', View.resolve txn.id (s.run later) = .error e s' →
      e = .malformed (.tooDeep txn.id) := by
  have hready : Ready (before ++ .create parent isolation additive :: later)
      (new name source now settings) := ready_new hample
  have hbefore := hready.run
  have hafter : (run (new name source now settings) before).after
      (.create parent isolation additive) = s := after_of_ok rfl hcreate
  have hs : Ready later s := hafter ▸ hbefore.after
  have hcreated : s.register.records txn.id = some txn ∧ txn.parent = parent :=
    ((create_ends hbefore.legible (hbefore.sound.fresh (hbefore.operation_supplied rfl)) parent
      isolation additive).of_ok hcreate).2
  have hendures := hbefore.effect.endures hbefore.sound hbefore.operation_supplied
  rw [hafter] at hendures
  obtain ⟨height, hreaches, hheight⟩ :=
    (create_height hbefore.legible hbefore.sound parent isolation additive).of_ok hcreate
  have hchain := (hreaches.child hendures hcreated.1 hcreated.2).of_endures hs.endures
  have hend := hs.run_whole
  have hresolve := resolve_of_ascends hend.sound (serving_iff.2 havailable) hchain
    (.refl hend.legible)
  rw [← hheight]
  constructor
  · constructor
    · rintro ⟨view, s', hview⟩
      exact hresolve.of_ok hview
    · intro hle
      cases hview : View.resolve txn.id (s.run later) with
      | ok view s' => exact ⟨view, s', rfl⟩
      | error e s' => exact absurd hle (Nat.not_le_of_lt (hresolve.of_error hview).2)
  · intro e s' hview
    exact (hresolve.of_error hview).1

/-- Below a chain of two there is room, also once the parent has committed. -/
theorem resolve_created_below_committed :
    ∃ txn s, create (some 2) none none (run (fromZero .standard) [.create none none none,
        .create (some 1) none none, .commit 2]) = .ok txn s ∧
      (s.run [.commit 1, .recordGlobalCommit 1 900]).partition.unavailable = false ∧
      ((∃ view s', View.resolve txn.id (s.run [.commit 1, .recordGlobalCommit 1 900]) =
          .ok view s') ↔
        (run (fromZero .standard) [.create none none none, .create (some 1) none none,
          .commit 2]).HasRoom (some 2)) ∧
      ∀ e s', View.resolve txn.id (s.run [.commit 1, .recordGlobalCommit 1 900]) = .error e s' →
        e = .malformed (.tooDeep txn.id) :=
  ⟨_, _, rfl, rfl, resolve_created_iff "stratum_txn" (fromZero .standard).source 1000000 .standard
    [.create none none none, .create (some 1) none none, .commit 2]
    [.commit 1, .recordGlobalCommit 1 900] (some 2) none none _ _ (.inl (by decide)) rfl rfl⟩

/-- 65 transactions begin one below the other, and the last one, though it was created, cannot be
resolved. -/
theorem resolve_created_too_deep :
    ∃ ops parent txn s, create parent none none (run (fromZero .standard) ops) = .ok txn s ∧
      s.partition.unavailable = false ∧
      ∃ s', View.resolve txn.id s = .error (.malformed (.tooDeep txn.id)) s' := by
  have hnew : (fromZero .standard).Line none 0 (longestChain + 1) :=
    line_new (by decide) (by decide)
  obtain ⟨ops, parent, txn, s, hcreate, hline⟩ := hnew.exists_beyond (by decide) rfl
  refine ⟨ops, parent, txn, s, hcreate, hline.writable.available, ?_⟩
  have hends := hline.resolve_ends (Nat.lt_succ_self _)
  cases hview : View.resolve txn.id s with
  | ok view s' => exact (hends.of_ok hview).elim
  | error e s' => exact ⟨s', hends.of_error hview ▸ rfl⟩

end Ledger

end Mvcc
