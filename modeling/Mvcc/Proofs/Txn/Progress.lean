import Mvcc.Proofs.Txn.Soundness

/-!
# Progress of records

A record keeps its origin and, once finished, everything; new begin and commit timestamps exceed all
earlier ones. While the clock does not go back, outcomes are final, and the cache agrees with them.
-/

namespace Mvcc.Register

variable {τ : Type} {r r' r'' : Register τ}

/-! ## Settling -/

/-- Finished transactions keep their standing. -/
def Settles (r r' : Register τ) : Prop :=
  ∀ id txn, r.standing? id = some txn → txn.state.isFinal → r'.standing? id = some txn

/-- Cached transactions are finished and have the cached standing. -/
def Faithful (r : Register τ) : Prop :=
  ∀ id txn, r.recalled id = some txn → r.standing? id = some txn ∧ txn.state.isFinal

theorem Settles.refl (r : Register τ) : r.Settles r := fun _ _ h _ => h

theorem Settles.trans (h : r.Settles r') (h' : r'.Settles r'') : r.Settles r'' :=
  fun id txn hstanding hfinal => h' id txn (h id txn hstanding hfinal) hfinal

theorem Faithful.answers_iff (h : r.Faithful) {id : TxnId} {txn : Txn} :
    r.Answers id txn ↔ r.standing? id = some txn := by
  constructor
  · rintro (hrecalled | hstanding)
    · exact (h id txn hrecalled).1
    · exact hstanding
  · exact .inr

/-- Memory stays faithful as long as nothing else than finished transactions enters it. -/
theorem Faithful.of_settles (h : r.Faithful) (hsettles : r.Settles r')
    (hrecalled : ∀ id txn, r'.recalled id = some txn →
      r.recalled id = some txn ∨ r.standing? id = some txn ∧ txn.state.isFinal) :
    r'.Faithful := by
  intro id txn htxn
  obtain ⟨hstanding, hfinal⟩ : r.standing? id = some txn ∧ txn.state.isFinal := by
    rcases hrecalled id txn htxn with hold | hnew
    · exact h id txn hold
    · exact hnew
  exact ⟨hsettles id txn hstanding hfinal, hfinal⟩

theorem settles_put_live {id : TxnId} {txn txn' : Txn} (hrecord : r.records id = some txn)
    (hactive : txn.state = .active) (hlive : r.isSilent txn = false) (source : τ) :
    r.Settles ((r.withSource source).put id txn') := by
  intro other found hfound hfinal
  rw [standing?_put]
  by_cases hother : other = id
  · subst hother
    rw [standing?_of_record hrecord, current_of_live hlive] at hfound
    cases hfound
    simp [TxnState.isFinal, hactive] at hfinal
  · rw [if_neg hother]
    exact hfound

theorem Step.settles (hstep : r.Step r') : r.Settles r' := by
  cases hstep with
  | @rollBack id txn hrecord hactive =>
    intro other found hfound hfinal
    rw [standing?_put]
    by_cases hother : other = id
    · subst hother
      rw [if_pos rfl, current_of_final (by simp)]
      rw [standing?_of_record hrecord] at hfound
      cases hsilent : r.isSilent txn with
      | true => rwa [current_of_silent hactive hsilent] at hfound
      | false =>
        rw [current_of_live hsilent] at hfound
        cases hfound
        simp [TxnState.isFinal, hactive] at hfinal
    · rw [if_neg hother]
      exact hfound
  | beat hrecord hactive hlive time => exact settles_put_live hrecord hactive hlive r.source
  | note hrecord hactive hlive tables => exact settles_put_live hrecord hactive hlive r.source
  | remember hremembers =>
    intro other found hfound _
    rw [hremembers.standing? other]
    exact hfound

theorem Drawn.settles [TimestampSource τ] {under : Option TxnId → Prop} (hfresh : r.Fresh)
    (hdrawn : r.Drawn under r') : r.Settles r' := by
  cases hdrawn with
  | unused hdraw => exact .refl r
  | @enter time source hdraw keepAlive parent hparent isolation additive =>
    intro other found hfound _
    rw [standing?_put, if_neg]
    · exact hfound
    · rintro rfl
      obtain ⟨stored, hstored, -⟩ := standing?_eq_some_iff.1 hfound
      cases (hfresh other source hdraw).symm.trans hstored
  | commit hdraw hrecord hactive hlive => exact settles_put_live hrecord hactive hlive _

/-! ## Advancing -/

section Advancing

variable [TimestampSource τ] [AscendingSource τ] {under : Option TxnId → Prop}

def Endures (r r' : Register τ) : Prop :=
  ∀ id txn, r.records id = some txn → ∃ txn', r'.records id = some txn' ∧ txn'.origin = txn.origin

omit [TimestampSource τ] [AscendingSource τ] in
theorem Endures.trans (h : r.Endures r') (h' : r'.Endures r'') : r.Endures r'' := by
  intro id txn hrecord
  obtain ⟨txn', hrecord', horigin⟩ := h id txn hrecord
  obtain ⟨txn'', hrecord'', horigin'⟩ := h' id txn' hrecord'
  exact ⟨txn'', hrecord'', horigin'.trans horigin⟩

/-- Records changed only as operations without global commits change them; new transactions have
parents as `under` says. -/
structure Advances (under : Option TxnId → Prop) (r r' : Register τ) : Prop where
  latest_le : r.latest ≤ r'.latest
  kept {id : TxnId} {txn : Txn} (h : r.records id = some txn) :
    ∃ txn', r'.records id = some txn' ∧ txn'.origin = txn.origin ∧
      txn'.globalCommitTime = txn.globalCommitTime ∧ (txn.state ≠ .active → txn' = txn) ∧
      (txn.state = .active → ∀ time, txn'.commitTime = some time → r.latest < time)
  born {id : TxnId} {txn : Txn} (h : r.records id = none) (h' : r'.records id = some txn) :
    r.latest < id ∧ under txn.parent ∧ txn.globalCommitTime = none

theorem Advances.of_records (under : Option TxnId → Prop) (h : r.Sound)
    (hrecords : r'.records = r.records) (hlatest : r.latest ≤ r'.latest) :
    r.Advances under r' where
  latest_le := hlatest
  kept {id txn} hrecord := by
    refine ⟨txn, hrecords ▸ hrecord, rfl, rfl, fun _ => rfl, fun hactive time htime => ?_⟩
    rw [(h.not_committed hrecord hactive).1] at htime
    cases htime
  born hnone hsome := by
    rw [hrecords, hnone] at hsome
    cases hsome

theorem Advances.refl (under : Option TxnId → Prop) (h : r.Sound) : r.Advances under r :=
  .of_records under h rfl (UInt64.le_refl _)

theorem Advances.mono {under' : Option TxnId → Prop} (h : r.Advances under r')
    (hunder : ∀ parent, under parent → under' parent) : r.Advances under' r' :=
  ⟨h.latest_le, h.kept, fun hnone hsome =>
    ⟨(h.born hnone hsome).1, hunder _ (h.born hnone hsome).2.1, (h.born hnone hsome).2.2⟩⟩

theorem Advances.endures (h : r.Advances under r') : r.Endures r' := by
  intro id txn hrecord
  obtain ⟨txn', hrecord', horigin, -⟩ := h.kept hrecord
  exact ⟨txn', hrecord', horigin⟩

theorem Advances.trans (h : r.Advances under r') (h' : r'.Advances under r'') :
    r.Advances under r'' where
  latest_le := UInt64.le_trans h.latest_le h'.latest_le
  kept {id txn} hrecord := by
    obtain ⟨txn', hrecord', horigin, hglobal, hfinal, hactive⟩ := h.kept hrecord
    obtain ⟨txn'', hrecord'', horigin', hglobal', hfinal', hactive'⟩ := h'.kept hrecord'
    refine ⟨txn'', hrecord'', horigin'.trans horigin, hglobal'.trans hglobal, fun hstate => ?_,
      fun hstate time htime => ?_⟩
    · cases hfinal hstate
      exact hfinal' hstate
    · by_cases hstate' : txn'.state = .active
      · exact UInt64.lt_of_le_of_lt h.latest_le (hactive' hstate' time htime)
      · cases hfinal' hstate'
        exact hactive hstate time htime
  born {id txn} hnone hsome := by
    cases hrecord' : r'.records id with
    | none =>
      obtain ⟨hlt, hunder, hglobal⟩ := h'.born hrecord' hsome
      exact ⟨UInt64.lt_of_le_of_lt h.latest_le hlt, hunder, hglobal⟩
    | some txn' =>
      obtain ⟨hlt, hunder, hglobal⟩ := h.born hnone hrecord'
      obtain ⟨txn'', hrecord'', horigin, hglobal', -⟩ := h'.kept hrecord'
      cases hsome.symm.trans hrecord''
      rw [(Txn.eq_of_origin horigin).2.2]
      exact ⟨hlt, hunder, hglobal'.trans hglobal⟩

/-- An active record may change in every part but its origin. -/
private theorem advances_put_active (h : r.Sound) {id : TxnId} {txn txn' : Txn}
    (hrecord : r.records id = some txn) (hactive : txn.state = .active) {source : τ}
    (hlatest : r.latest ≤ AscendingSource.latest source) (horigin : txn'.origin = txn.origin)
    (hglobal : txn'.globalCommitTime = txn.globalCommitTime)
    (hcommit : ∀ time, txn'.commitTime = some time → r.latest < time) :
    r.Advances under ((r.withSource source).put id txn') where
  latest_le := hlatest
  kept {other found} hfound := by
    by_cases hother : other = id
    · subst hother
      cases hrecord.symm.trans hfound
      exact ⟨txn', if_pos rfl, horigin, hglobal, fun hstate => absurd hactive hstate,
        fun _ => hcommit⟩
    · obtain ⟨found', hfound', hrest⟩ := (Advances.refl under h).kept hfound
      exact ⟨found', (if_neg hother).trans hfound', hrest⟩
  born {other found} hnone hsome := by
    simp only [put, withSource] at hsome
    split at hsome
    · rename_i hother
      rw [hother] at hnone
      cases hnone.symm.trans hrecord
    · cases hnone.symm.trans hsome

theorem Step.advances (h : r.Sound) (hstep : r.Step r') : r.Advances under r' := by
  cases hstep with
  | rollBack hrecord hactive =>
    exact advances_put_active h hrecord hactive (UInt64.le_refl _) rfl rfl
      (by simp [(h.not_committed hrecord hactive).1])
  | beat hrecord hactive hlive time =>
    exact advances_put_active h hrecord hactive (UInt64.le_refl _) rfl rfl
      (by simp [(h.not_committed hrecord hactive).1])
  | note hrecord hactive hlive tables =>
    exact advances_put_active h hrecord hactive (UInt64.le_refl _) rfl rfl
      (by simp [(h.not_committed hrecord hactive).1])
  | remember hremembers =>
    rw [hremembers.1]
    exact .of_records under h rfl (UInt64.le_refl _)

theorem Drawn.advances (h : r.Sound) (hsupply : 0 < AscendingSource.supply r.source)
    (hdrawn : r.Drawn under r') : r.Advances under r' := by
  cases hdrawn with
  | unused hdraw =>
    obtain ⟨hlt, hle, -⟩ := AscendingSource.drawn hsupply hdraw
    exact .of_records under h rfl (UInt64.le_trans (UInt64.le_of_lt hlt) hle)
  | @enter time source hdraw keepAlive parent hparent isolation additive =>
    obtain ⟨hlt, hle, -⟩ := AscendingSource.drawn hsupply hdraw
    refine ⟨UInt64.le_trans (UInt64.le_of_lt hlt) hle, fun {id txn} hrecord => ?_,
      fun {id txn} hnone hsome => ?_⟩
    · obtain ⟨txn', hrecord', hrest⟩ := (Advances.refl under h).kept hrecord
      refine ⟨txn', (if_neg ?_).trans hrecord', hrest⟩
      rintro rfl
      cases (h.fresh hsupply id source hdraw).symm.trans hrecord
    · simp only [put, withSource] at hsome
      split at hsome
      · rename_i hother
        cases hsome
        exact ⟨hother ▸ hlt, hparent, rfl⟩
      · cases hnone.symm.trans hsome
  | commit hdraw hrecord hactive hlive =>
    obtain ⟨hlt, hle, -⟩ := AscendingSource.drawn hsupply hdraw
    refine advances_put_active h hrecord hactive (UInt64.le_trans (UInt64.le_of_lt hlt) hle) rfl
      rfl ?_
    rintro _ ⟨⟩
    exact hlt

/-! ## Whole operations -/

/-- A register advanced, apart from what depends on the clock going back. -/
structure Proceeds (under : Option TxnId → Prop) (r r' : Register τ) : Prop where
  sound : r'.Sound
  advances : r.Advances under r'
  settles : r.Settles r'
  faithful (h : r.Faithful) : r'.Faithful

theorem Proceeds.refl (under : Option TxnId → Prop) (h : r.Sound) : r.Proceeds under r :=
  ⟨h, .refl under h, .refl r, fun h => h⟩

theorem Proceeds.trans (h : r.Proceeds under r') (h' : r'.Proceeds under r'') :
    r.Proceeds under r'' :=
  ⟨h'.sound, h.advances.trans h'.advances, h.settles.trans h'.settles,
    fun hfaithful => h'.faithful (h.faithful hfaithful)⟩

theorem Step.proceeds (under : Option TxnId → Prop) (h : r.Sound) (hstep : r.Step r') :
    r.Proceeds under r' := by
  refine ⟨h.step hstep, hstep.advances h, hstep.settles, fun hfaithful => ?_⟩
  refine hfaithful.of_settles hstep.settles fun id txn htxn => ?_
  cases hstep with
  | remember hremembers => exact hremembers.2 id txn htxn
  | _ => exact .inl htxn

theorem Steps.proceeds (under : Option TxnId → Prop) (h : r.Sound) (hsteps : r.Steps r') :
    r.Proceeds under r' := by
  induction hsteps with
  | refl => exact .refl under h
  | tail _ hstep ih => exact ih.trans (hstep.proceeds under ih.sound)

theorem Drawn.proceeds (h : r.Sound) (hsupply : 0 < AscendingSource.supply r.source)
    (hdrawn : r.Drawn under r') : r.Proceeds under r' := by
  have hsettles := hdrawn.settles (h.fresh hsupply)
  refine ⟨h.drawn hsupply hdrawn, hdrawn.advances h hsupply, hsettles, fun hfaithful => ?_⟩
  refine hfaithful.of_settles hsettles fun id txn htxn => .inl ?_
  cases hdrawn <;> exact htxn

theorem Served.proceeds (h : r.Sound) (hsupply : 0 < AscendingSource.supply r.source)
    (hserved : r.Served under r') : r.Proceeds under r' := by
  rcases hserved with hsteps | ⟨r₁, r₂, hbefore, hdrawn, hafter⟩
  · exact hsteps.proceeds under h
  · have hbefore' := hbefore.proceeds under h
    have hdrawn' := hdrawn.proceeds hbefore'.sound (hbefore.source ▸ hsupply)
    exact (hbefore'.trans hdrawn').trans (hafter.proceeds under hdrawn'.sound)

theorem Starved.proceeds (under : Option TxnId → Prop) (h : r.Sound)
    (hsupply : 0 < AscendingSource.supply r.source) (hstarved : r.Starved r') :
    r.Proceeds under r' := by
  obtain ⟨r₁, e, source, hbefore, hdraw, rfl⟩ := hstarved
  obtain ⟨hle, -⟩ := AscendingSource.refused (hbefore.steps.source ▸ hsupply) hdraw
  have hbefore' := hbefore.steps.proceeds under h
  exact hbefore'.trans ⟨hbefore'.sound.withSource hle, .of_records under hbefore'.sound rfl hle,
    .refl _, fun hfaithful => hfaithful⟩

theorem Served.supply_le (hsupply : 0 < AscendingSource.supply r.source)
    (hserved : r.Served under r') :
    AscendingSource.supply r.source ≤ AscendingSource.supply r'.source + 1 := by
  rcases hserved with hsteps | ⟨r₁, r₂, hbefore, hdrawn, hafter⟩
  · rw [hsteps.source]
    omega
  · rw [hafter.source]
    rw [← hbefore.source] at hsupply ⊢
    cases hdrawn with
    | unused hdraw => exact (AscendingSource.drawn hsupply hdraw).2.2
    | enter hdraw => exact (AscendingSource.drawn hsupply hdraw).2.2
    | commit hdraw => exact (AscendingSource.drawn hsupply hdraw).2.2

theorem Served.supply_pos (hsupply : 0 < AscendingSource.supply r.source)
    (hserved : r.Served under r') : 0 < AscendingSource.supply r'.source := by
  rcases hserved with hsteps | ⟨r₁, r₂, hbefore, hdrawn, hafter⟩
  · rw [hsteps.source]
    exact hsupply
  · rw [hafter.source]
    rw [← hbefore.source] at hsupply
    cases hdrawn with
    | unused hdraw => exact AscendingSource.answered hsupply hdraw
    | enter hdraw => exact AscendingSource.answered hsupply hdraw
    | commit hdraw => exact AscendingSource.answered hsupply hdraw

theorem Starved.supply_le (hsupply : 0 < AscendingSource.supply r.source)
    (hstarved : r.Starved r') :
    AscendingSource.supply r.source ≤ AscendingSource.supply r'.source + 1 := by
  obtain ⟨r₁, e, source, hbefore, hdraw, rfl⟩ := hstarved
  rw [← hbefore.steps.source] at hsupply ⊢
  exact (AscendingSource.refused hsupply hdraw).2

/-! ## Meanwhile -/

theorem Sound.meanwhile (h : r.Sound) (now : UInt64) (serving : Bool) :
    (r.meanwhile now serving).Sound :=
  ⟨h.known, h.committed, h.ordered, h.recalled⟩

theorem Advances.meanwhile (under : Option TxnId → Prop) (h : r.Sound) (now : UInt64)
    (serving : Bool) : r.Advances under (r.meanwhile now serving) :=
  .of_records under h rfl (UInt64.le_refl _)

/-- While the clock does not go back, finished transactions stay as they are. -/
theorem Proceeds.meanwhile (under : Option TxnId → Prop) (h : r.Sound) {now : UInt64}
    (hnow : r.now ≤ now) (serving : Bool) : r.Proceeds under (r.meanwhile now serving) := by
  have hsettles : r.Settles (r.meanwhile now serving) := by
    intro id txn htxn hfinal
    obtain ⟨stored, hstored, rfl⟩ := standing?_eq_some_iff.1 htxn
    refine standing?_eq_some_iff.2 ⟨stored, hstored, ?_⟩
    by_cases hactive : stored.state = .active
    · cases hsilent : r.isSilent stored with
      | true =>
        rw [current_of_silent hactive (isSilent_meanwhile hnow serving hsilent),
          current_of_silent hactive hsilent]
      | false =>
        rw [current_of_live hsilent] at hfinal
        simp [TxnState.isFinal, hactive] at hfinal
    · rw [current_of_final hactive, current_of_final hactive]
  exact ⟨h.meanwhile now serving, .meanwhile under h now serving, hsettles,
    fun hfaithful => hfaithful.of_settles hsettles fun _ _ htxn => .inl htxn⟩

end Advancing

end Mvcc.Register
