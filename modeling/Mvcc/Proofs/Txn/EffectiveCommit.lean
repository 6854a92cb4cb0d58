import Mvcc.Proofs.Txn.Chain
import Mvcc.Proofs.Txn.Run

/-!
# Effective commit timestamps

A root commits after everything begun below it before, so the effective commit timestamp of a
transaction exceeds its begin, unless its root was committed when it began.
-/

namespace Mvcc

/-! ## Roots -/

namespace Register

variable {τ : Type} {r r' : Register τ}

variable [TimestampSource τ] [AscendingSource τ]

/-- Without coordinated commits, an effectively committed transaction has its root's commit time. -/
theorem Sound.exists_commitTime (h : r.Sound)
    (hlocal : ∀ id txn, r.records id = some txn → txn.globalCommitTime = none) {id : TxnId}
    {view : View} (hlineage : r.Lineage id view.chain)
    (hcommitted : view.effectiveState = .committed) :
    ∃ time, view.effectiveCommitTime = some time ∧ view.root.commitTime = some time := by
  have hrecorded : ∀ txn ∈ view.chain, ∃ other, r.records other = some txn := by
    intro txn hmember
    obtain ⟨other, hanswer⟩ := hlineage.answers_of_mem txn hmember
    have hstate := View.state_of_effectiveState hcommitted txn hmember
    exact ⟨other, h.record_of_committed hanswer hstate⟩
  have hnowhere : ∀ txn ∈ view.chain, txn.globalCommitTime = none := by
    intro txn hmember
    obtain ⟨other, hrecord⟩ := hrecorded txn hmember
    exact hlocal other txn hrecord
  have hroot := view.root_mem_chain
  obtain ⟨top, hrecord⟩ := hrecorded view.root hroot
  have hcommit := (h.committed hrecord).1 (View.state_of_effectiveState hcommitted _ hroot)
  have hsome : view.root.commitTime.isSome := by simpa [hnowhere _ hroot] using hcommit
  obtain ⟨time, htime⟩ := Option.isSome_iff_exists.1 hsome
  exact ⟨time, (View.effectiveCommitTime_eq hcommitted hnowhere).trans htime, htime⟩

theorem Lineage.root_of_advances {under : Option TxnId → Prop} (hr : r.Sound) (hr' : r'.Sound)
    (hadvances : r.Advances under r') {id : TxnId} {chain chain' : List Txn}
    (h : r.Lineage id chain) (h' : r'.Lineage id chain') {txn txn' : Txn}
    (hlast : chain.getLast? = some txn) (hlast' : chain'.getLast? = some txn') :
    ∃ other, r.Answers other txn ∧ r'.Answers other txn' := by
  have hparents : ∀ {id : TxnId} {a b : Txn}, r.Answers id a → r'.Answers id b →
      a.parent = b.parent := by
    intro id a b ha hb
    obtain ⟨stored, hstored, horigin, -⟩ := hr.record_of_answer ha
    obtain ⟨stored', hstored', horigin', -⟩ := hr'.record_of_answer hb
    obtain ⟨kept, hkept, hsame, -⟩ := hadvances.kept hstored
    cases hstored'.symm.trans hkept
    rw [(Txn.eq_of_origin horigin).2.2, (Txn.eq_of_origin horigin').2.2,
      (Txn.eq_of_origin hsame).2.2]
  induction h generalizing chain' with
  | @root id member hanswer hparent =>
    cases h' with
    | root hanswer' hparent' =>
      cases hlast
      cases hlast'
      exact ⟨id, hanswer, hanswer'⟩
    | child hanswer' hparent' _ =>
      cases hparent.symm.trans ((hparents hanswer hanswer').trans hparent')
  | @child id parent member above hanswer hparent habove ih =>
    cases h' with
    | root hanswer' hparent' =>
      cases hparent.symm.trans ((hparents hanswer hanswer').trans hparent')
    | @child _ parent' member' above' hanswer' hparent' habove' =>
      cases hparent.symm.trans ((hparents hanswer hanswer').trans hparent')
      have hne : above ≠ [] := by cases habove <;> simp
      have hne' : above' ≠ [] := by cases habove' <;> simp
      rw [List.getLast?_cons_of_ne_nil hne] at hlast
      rw [List.getLast?_cons_of_ne_nil hne'] at hlast'
      exact ih habove' hlast hlast'

end Register

/-! ## Births -/

namespace Ledger

variable {τ : Type} [TimestampSource τ] {s : Ledger τ} {id : TxnId} {txn : Txn}

/-- The parent of the transaction to begin has a committed root. -/
def BelowCommitted (s : Ledger τ) (parent : Option TxnId) : Prop :=
  ∃ id view s', parent = some id ∧ View.resolve id s = .ok view s' ∧ view.root.state = .committed

theorem exists_birth {ops : List Operation} (hnone : s.register.records id = none)
    (hsome : (s.run ops).register.records id = some txn) :
    ∃ before op later born, ops = before ++ op :: later ∧
      (s.run before).register.records id = none ∧
      ((s.run before).after op).register.records id = some born := by
  induction ops generalizing s with
  | nil => cases hnone.symm.trans hsome
  | cons op ops ih =>
    cases hnext : (s.after op).register.records id with
    | some born => exact ⟨[], op, ops, born, rfl, hnone, hnext⟩
    | none =>
      obtain ⟨before, birth, later, born, rfl, hbefore, hborn⟩ := ih hnext hsome
      exact ⟨op :: before, birth, later, born, rfl, hbefore, hborn⟩

/-- A transaction resolves and is not rolled back, so that children may begin. -/
def AdmitsBelow (s : Ledger τ) (parent : TxnId) : Prop :=
  ∃ view s', View.resolve parent s = .ok view s' ∧ view.effectiveState ≠ .rolledBack

theorem create_below_ends (hs : s.Legible) (parent : TxnId) (isolation : Option Isolation)
    (additive : Option Bool) :
    TxnM.Ends (create (some parent) isolation additive) s (fun _ _ => s.AdmitsBelow parent)
      fun _ s' => s.AdmitsBelow parent ∨ s.Looked s' := by
  rw [create, Option.mapM_some, TxnM.ends_bind, TxnM.ends_map, checkParent, TxnM.ends_bind]
  refine .of_forall (fun view s₁ hview => ?_) fun e s₁ he => ?_
  · split
    · exact .inr ((resolve_ends hs).of_ok hview).1
    · rename_i hstate
      have hadmits : s.AdmitsBelow parent := ⟨view, s₁, hview, hstate⟩
      exact TxnM.ends_pure.2 (.of_forall (fun _ _ _ => hadmits) fun _ _ _ => .inl hadmits)
  · exact .inr ((resolve_ends hs).of_error he)

theorem admitsBelow_of_born {parent : TxnId} {isolation : Option Isolation}
    {additive : Option Bool} (hs : s.Legible) (hnone : s.register.records id = none)
    (hborn : (s.after (.create (some parent) isolation additive)).register.records id = some txn) :
    s.AdmitsBelow parent := by
  have hends := create_below_ends hs parent isolation additive
  have hafter : s.AdmitsBelow parent ∨
      s.Looked (s.after (.create (some parent) isolation additive)) :=
    after_of_ends (p := fun s' => s.AdmitsBelow parent ∨ s.Looked s') (TxnM.ends_map.2
      (hends.mono (fun _ _ h => .inl h) fun _ _ h => h))
  rcases hafter with hadmits | ⟨-, hremembers⟩
  · exact hadmits
  · rw [hremembers.records] at hborn
    cases hnone.symm.trans hborn

/-- A transaction begins in a `create` with its parent, after all earlier timestamps, and no other
record changes. -/
theorem create_of_born [AscendingSource τ] {op : Operation} {later : List Operation}
    (h : Ready (op :: later) s) (hlocal : op.isLocal = true)
    (hnone : s.register.records id = none)
    (hborn : (s.after op).register.records id = some txn) :
    ∃ parent isolation additive, op = .create parent isolation additive ∧ txn.parent = parent ∧
      s.register.latest < id ∧
      ∀ other stored, s.register.records other = some stored →
        (s.after op).register.records other = some stored := by
  obtain ⟨hlt, hunder, -⟩ := (h.effect.advances h.sound h.operation_supplied hlocal).2.born hnone
    hborn
  cases op with
  | create parent isolation additive =>
    refine ⟨parent, isolation, additive, rfl, hunder, hlt, ?_⟩
    have hsupply := h.operation_supplied rfl
    rcases h.effect with hentered | hstarved
    · generalize (s.after _).register = r at hentered hborn ⊢
      cases hentered with
      | rejected hremembers =>
        rw [hremembers.records] at hborn
        cases hnone.symm.trans hborn
      | unused hremembers hdraw =>
        have hsame : s.register.records id = some txn := hremembers.records ▸ hborn
        cases hnone.symm.trans hsame
      | @enter r' hremembers time source hdraw keepAlive =>
        intro other stored hstored
        have hkept : r'.records other = some stored := hremembers.records ▸ hstored
        refine (if_neg ?_).trans hkept
        rintro rfl
        have hfresh : r'.Fresh := by
          rw [hremembers.1]
          exact h.sound.fresh hsupply
        cases (hfresh other source hdraw).symm.trans hkept
    · exact ((hstarved.proceeds (fun _ => False) h.sound hsupply).advances.born hnone
        hborn).2.1.elim
  | _ => exact hunder.elim

variable [AscendingSource τ]

/-- A root that was committed when a transaction began has an earlier commit time; one that commits
later has a later one. -/
theorem lt_commitTime_iff {parent : TxnId} {isolation : Option Isolation} {additive : Option Bool}
    {later : List Operation} (h : Ready (.create (some parent) isolation additive :: later) s)
    (hlocal : ∀ op ∈ later, op.isLocal = true) (hnone : s.register.records id = none)
    (hborn : (s.after (.create (some parent) isolation additive)).register.records id = some txn)
    {above : List Txn}
    (habove : (s.run (.create (some parent) isolation additive :: later)).register.Lineage
      parent above)
    {root : Txn} (hlast : above.getLast? = some root) (hcommitted : root.state = .committed)
    {time : Timestamp} (htime : root.commitTime = some time) :
    id < time ↔ ¬ s.BelowCommitted (some parent) := by
  have hlater : Ready (later ++ []) (s.after (.create (some parent) isolation additive)) := by
    rw [List.append_nil]
    exact h.after
  have hfirst := (h.effect.advances h.sound h.operation_supplied rfl).2
  have hrest := h.after.advances hlocal
  have hall := (hfirst.mono fun _ _ => trivial).trans hrest
  obtain ⟨view, s', hresolve, hstate⟩ := admitsBelow_of_born h.legible hnone hborn
  obtain ⟨-, hlineage⟩ := (resolve_ends h.legible).of_ok hresolve
  obtain ⟨other, hanswer, hanswer'⟩ := hlineage.root_of_advances h.sound hlater.run.sound hall
    habove view.getLast?_chain hlast
  obtain ⟨stored, hstored, -, hsame, hactive⟩ := h.sound.record_of_answer hanswer
  obtain ⟨stored', hstored', -, hsame', -⟩ := hlater.run.sound.record_of_answer hanswer'
  cases hsame' hcommitted
  obtain ⟨_, _, _, -, -, hlt, hkeeps⟩ := create_of_born h rfl hnone hborn
  have hbelow : s.BelowCommitted (some parent) ↔ view.root.state = .committed := by
    constructor
    · rintro ⟨_, view', s'', ⟨⟩, hresolve', hroot⟩
      cases hresolve'.symm.trans hresolve
      exact hroot
    · exact fun hroot => ⟨parent, view, s', rfl, hresolve, hroot⟩
  rw [hbelow]
  -- A root committed at the birth has a smaller timestamp; one still active draws a greater one.
  cases hroot : view.root.state with
  | committed =>
    rw [hsame hroot] at hroot
    obtain ⟨kept, hkept, -, -, hfinal, -⟩ := hall.kept hstored
    cases hstored'.symm.trans hkept
    cases hfinal (by simp [hroot])
    have hle : time ≤ s.register.latest := (h.sound.ordered hstored htime).2
    have hnot : ¬ id < time := by grind
    simp [hnot]
  | active =>
    obtain ⟨kept, hkept, -, -, -, hafter⟩ := hrest.kept (hkeeps other stored hstored)
    cases hstored'.symm.trans hkept
    have hbefore := hafter (hactive hroot) time htime
    have hknown := (h.after.sound.known hborn).2.2
    have hid : id < time := by grind
    simp [hid]
  | rolledBack =>
    exact absurd hroot (View.state_ne_of_effectiveState hstate _ view.root_mem_chain)

theorem lt_rootTime_iff {parent : Option TxnId} {isolation : Option Isolation}
    {additive : Option Bool} {later : List Operation}
    (h : Ready (.create parent isolation additive :: later) s)
    (hlocal : ∀ op ∈ later, op.isLocal = true) (hnone : s.register.records id = none)
    (hborn : (s.after (.create parent isolation additive)).register.records id = some txn)
    {view : View}
    (hlineage : (s.run (.create parent isolation additive :: later)).register.Lineage id view.chain)
    (hcommitted : view.effectiveState = .committed) {time : Timestamp}
    (htime : view.root.commitTime = some time) : id < time ↔ ¬ s.BelowCommitted parent := by
  have hlater : Ready (later ++ []) (s.after (.create parent isolation additive)) := by
    rw [List.append_nil]
    exact h.after
  have hsound := hlater.run.sound
  have hself := hsound.record_of_committed hlineage.head.1
    (View.state_of_effectiveState hcommitted _ (List.mem_cons_self ..))
  obtain ⟨_, _, _, ⟨⟩, hparent, -, -⟩ := create_of_born h rfl hnone hborn
  obtain ⟨kept, hkept, horigin, -⟩ := (h.after.advances hlocal).kept hborn
  cases hself.symm.trans hkept
  rw [← (Txn.eq_of_origin horigin).2.2] at hparent
  rcases hlineage.head.2 with ⟨hnoParent, habove⟩ | ⟨other, hother, hne, habove⟩
  · cases hnoParent.symm.trans hparent
    have hroot : view.root = view.record := by simp [View.root, habove]
    have hlt : id < time := (hsound.ordered hself (hroot ▸ htime)).1
    refine iff_of_true hlt ?_
    rintro ⟨_, _, _, ⟨⟩, -⟩
  · cases hother.symm.trans hparent
    have hlast : view.ancestors.getLast? = some view.root := by
      rw [← view.getLast?_chain, View.chain, List.getLast?_cons_of_ne_nil hne]
    have hstate := View.state_of_effectiveState hcommitted _ view.root_mem_chain
    exact lt_commitTime_iff h hlocal hnone hborn habove hlast hstate htime

/-- In every run without global commits, with any clock, as long as the source does not wrap: an
effectively committed transaction has an effective commit time, which is after its own begin exactly
if it did not begin below a committed root. -/
theorem beginTime_lt_effectiveCommitTime_iff (name : String) (source : τ) (now : UInt64)
    (settings : TxnSettings) (ops : List Operation) (id : TxnId) (view : View) (s : Ledger τ)
    (hample : Ample (new name source now settings) ops)
    (hlocal : ∀ op ∈ ops, op.isLocal = true)
    (hview : View.resolve id (run (new name source now settings) ops) = .ok view s)
    (hcommitted : view.effectiveState = .committed) :
    ∃ time, view.effectiveCommitTime = some time ∧
      ∃ before parent isolation additive later,
        ops = before ++ .create parent isolation additive :: later ∧
        (run (new name source now settings) before).partition.record? id = none ∧
        ((run (new name source now settings)
          (before ++ [.create parent isolation additive])).partition.record? id).isSome ∧
        (view.beginTime < time ↔
          ¬ (run (new name source now settings) before).BelowCommitted parent) := by
  have hready : Ready ops (new name source now settings) := ready_new hample
  have hend : Ready (ops ++ []) (new name source now settings) := by rwa [List.append_nil]
  have hsound := hend.run.sound
  obtain ⟨-, hlineage⟩ := (resolve_ends hend.run.legible).of_ok hview
  have hglobal : ∀ other txn,
      (run (new name source now settings) ops).register.records other = some txn →
        txn.globalCommitTime = none := fun other _ hrecord =>
    ((hready.advances hlocal).born (records_new other) hrecord).2.2
  obtain ⟨time, heffective, htime⟩ := hsound.exists_commitTime hglobal hlineage hcommitted
  refine ⟨time, heffective, ?_⟩
  have hself := hsound.record_of_committed hlineage.head.1
    (View.state_of_effectiveState hcommitted _ (List.mem_cons_self ..))
  have hbegin : view.beginTime = id := (hsound.known hself).2.1
  obtain ⟨before, op, later, born, rfl, hnone, hborn⟩ := exists_birth (records_new id) hself
  have hbirth := hready.run
  obtain ⟨parent, isolation, additive, rfl, -, -, -⟩ :=
    create_of_born hbirth (hlocal op (by simp)) hnone hborn
  have hlater : ∀ op ∈ later, op.isLocal = true := fun op hop => hlocal op (by simp [hop])
  refine ⟨before, parent, isolation, additive, later, rfl, hnone, ?_, ?_⟩
  · rw [run_append]
    exact Option.isSome_iff_exists.2 ⟨born, hborn⟩
  · rw [run_append] at hlineage
    rw [hbegin]
    exact lt_rootTime_iff hbirth hlater hnone hborn hlineage hcommitted htime

/-- A transaction that begins below an active root and commits first is effectively committed when
the root is. -/
theorem beginTime_lt_effectiveCommitTime_below_active :
    ∃ view s, View.resolve 2 (run (fromZero .standard) [.create none none none,
        .create (some 1) none none, .commit 2, .commit 1]) = .ok view s ∧
      ∃ time, view.effectiveCommitTime = some time ∧
        ∃ before parent isolation additive later,
          [.create none none none, .create (some 1) none none, .commit 2, .commit 1] =
            before ++ .create parent isolation additive :: later ∧
          (run (fromZero .standard) before).partition.record? 2 = none ∧
          ((run (fromZero .standard)
            (before ++ [.create parent isolation additive])).partition.record? 2).isSome ∧
          (view.beginTime < time ↔ ¬ (run (fromZero .standard) before).BelowCommitted parent) :=
  ⟨_, _, rfl, beginTime_lt_effectiveCommitTime_iff "stratum_txn" (fromZero .standard).source
    1000000 .standard _ 2 _ _ (.inl (by decide)) (by decide) rfl rfl⟩

/-- A transaction that begins below a committed root has an effective commit before its begin. -/
theorem effectiveCommitTime_lt_beginTime_below_committed :
    ∃ view s, View.resolve 3 (run (fromZero .standard) [.create none none none, .commit 1,
        .create (some 1) none none, .commit 3]) = .ok view s ∧
      view.effectiveState = .committed ∧ view.effectiveCommitTime = some 2 ∧ view.beginTime = 3 :=
  ⟨_, _, rfl, rfl, rfl, rfl⟩

end Ledger

end Mvcc
