import Mvcc.Proofs.Txn.Supply

/-!
# Ledgers that agree

Two ledgers with the same records, source and clock may have different caches. If cached entries are
correct and the storage is available, every operation ends alike on both.
-/

namespace Mvcc

namespace TxnM

variable {σ α β : Type} {related : σ → σ → Prop} {steps steps' : TxnM σ α} {s s' : σ}

/-- From two states the steps both succeed with the same value or both fail with the same error, in
related states. -/
def Agree (related : σ → σ → Prop) (steps steps' : TxnM σ α) (s s' : σ) : Prop :=
  match steps s, steps' s' with
  | .ok value t, .ok value' t' => value = value' ∧ related t t'
  | .error e t, .error e' t' => e = e' ∧ related t t'
  | _, _ => False

theorem agree_pure (value : α) (h : related s s') : Agree related (pure value) (pure value) s s' :=
  ⟨rfl, h⟩

theorem agree_throw (e : TxnError) (h : related s s') :
    Agree related (throw e : TxnM σ α) (throw e) s s' :=
  ⟨rfl, h⟩

theorem agree_throw_bind (e : TxnError) {next next' : α → TxnM σ β} (h : related s s') :
    Agree related (throw e >>= next) (throw e >>= next') s s' :=
  ⟨rfl, h⟩

theorem agree_modify {change change' : σ → σ} (h : related (change s) (change' s')) :
    Agree related (modify change) (modify change') s s' :=
  ⟨rfl, h⟩

theorem agree_ofExcept {ε : Type} (wrap : ε → TxnError) (result : Except ε α) (h : related s s') :
    Agree related (ofExcept wrap result) (ofExcept wrap result) s s' := by
  cases result with
  | ok value => exact agree_pure value h
  | error e => exact agree_throw (wrap e) h

theorem Agree.bind_of {middle : σ → σ → Prop} {next next' : α → TxnM σ β}
    (h : Agree middle steps steps' s s') (hmiddle : ∀ t t', middle t t' → related t t')
    (hnext : ∀ value t t', middle t t' → Agree related (next value) (next' value) t t') :
    Agree related (steps >>= next) (steps' >>= next') s s' := by
  unfold Agree at h
  simp only [Agree, Bind.bind, EStateM.bind]
  cases hsteps : steps s <;> cases hsteps' : steps' s' <;> simp only [hsteps, hsteps'] at h
  · obtain ⟨rfl, hrelated⟩ := h
    exact hnext _ _ _ hrelated
  · exact ⟨h.1, hmiddle _ _ h.2⟩

theorem Agree.bind {next next' : α → TxnM σ β} (h : Agree related steps steps' s s')
    (hnext : ∀ value t t', related t t' → Agree related (next value) (next' value) t t') :
    Agree related (steps >>= next) (steps' >>= next') s s' :=
  h.bind_of (fun _ _ h => h) hnext

theorem agree_get_bind {next next' : σ → TxnM σ β} (h : Agree related (next s) (next' s') s s') :
    Agree related (get >>= next) (get >>= next') s s' :=
  h

theorem Agree.map (f : α → β) (h : Agree related steps steps' s s') :
    Agree related (f <$> steps) (f <$> steps') s s' := by
  unfold Agree at h
  simp only [Agree, Functor.map, EStateM.map]
  cases hsteps : steps s <;> cases hsteps' : steps' s' <;> simp only [hsteps, hsteps'] at h
  · exact ⟨congrArg f h.1, h.2⟩
  · exact h

theorem Agree.tryCatch {handle handle' : TxnError → TxnM σ α}
    (h : Agree related steps steps' s s')
    (hhandle : ∀ e t t', related t t' → Agree related (handle e) (handle' e) t t') :
    Agree related (tryCatch steps handle) (tryCatch steps' handle') s s' := by
  unfold Agree at h
  simp only [Agree, MonadExcept.tryCatch, tryCatchThe, MonadExceptOf.tryCatch]
  delta EStateM.tryCatch
  cases hsteps : steps s <;> cases hsteps' : steps' s' <;> simp only [hsteps, hsteps'] at h
  · exact h
  · obtain ⟨rfl, hrelated⟩ := h
    exact hhandle _ _ _ hrelated

theorem agree_of_ends {result : Except TxnError α} {good good' : σ → Prop}
    (h : Ends steps s (fun value t => result = .ok value ∧ good t)
      fun e t => result = .error e ∧ good t)
    (h' : Ends steps' s' (fun value t => result = .ok value ∧ good' t)
      fun e t => result = .error e ∧ good' t)
    (hrelated : ∀ t t', good t → good' t' → related t t') : Agree related steps steps' s s' := by
  unfold Ends at h h'
  unfold Agree
  cases hsteps : steps s <;> cases hsteps' : steps' s' <;> simp only [hsteps, hsteps'] at h h'
  · exact ⟨Except.ok.inj (h.1.symm.trans h'.1), hrelated _ _ h.2 h'.2⟩
  · cases h.1.symm.trans h'.1
  · cases h.1.symm.trans h'.1
  · exact ⟨Except.error.inj (h.1.symm.trans h'.1), hrelated _ _ h.2 h'.2⟩

end TxnM

namespace Ledger

open TxnM

variable {τ : Type} {s s' s'' : Ledger τ} {id : TxnId}

/-- The ledgers differ only in their caches, counters and cache settings. -/
structure Alike (s s' : Ledger τ) : Prop where
  partition : s'.partition = s.partition
  quota : s'.quota = s.quota
  source : s'.source = s.source
  now : s'.now = s.now
  timeout : s'.settings.timeout = s.settings.timeout
  timeoutSlack : s'.settings.timeoutSlack = s.settings.timeoutSlack

namespace Alike

@[refl] theorem refl (s : Ledger τ) : s.Alike s := ⟨rfl, rfl, rfl, rfl, rfl, rfl⟩

theorem symm (h : s.Alike s') : s'.Alike s :=
  ⟨h.partition.symm, h.quota.symm, h.source.symm, h.now.symm, h.timeout.symm, h.timeoutSlack.symm⟩

theorem trans (h : s.Alike s') (h' : s'.Alike s'') : s.Alike s'' :=
  ⟨h'.partition.trans h.partition, h'.quota.trans h.quota, h'.source.trans h.source,
    h'.now.trans h.now, h'.timeout.trans h.timeout, h'.timeoutSlack.trans h.timeoutSlack⟩

theorem isSilent (h : s.Alike s') : s'.isSilent = s.isSilent := by
  funext keepAlive
  rw [Ledger.isSilent, Ledger.isSilent, h.now, h.timeout, h.timeoutSlack]

theorem currentState (h : s.Alike s') : s'.currentState = s.currentState := by
  funext state keepAlive
  rw [Ledger.currentState, Ledger.currentState, h.isSilent]

theorem current (h : s.Alike s') : s'.current = s.current := by
  funext txn
  rw [Ledger.current, Ledger.current, h.currentState]

theorem stored (h : s.Alike s') (id : TxnId) : s'.stored id = s.stored id := by
  rw [Ledger.stored, Ledger.stored, h.partition]

theorem known (h : s.Alike s') (hfaithful : s.register.Faithful)
    (hfaithful' : s'.register.Faithful) (havailable : s.partition.unavailable = false) :
    s'.known = s.known := by
  funext id
  have havailable' : s'.partition.unavailable = false := h.partition ▸ havailable
  rw [known_of_available hfaithful' havailable', known_of_available hfaithful havailable,
    h.stored, h.current]

end Alike

/-! ## Looking up -/

theorem find_alike (s : Ledger τ) (id : TxnId) : Leaves (find id) s s.Alike := by
  have hrecollect : Ends (recollect id) s (fun _ s' => s.Alike s') fun _ _ => False :=
    ⟨rfl, rfl, rfl, rfl, rfl, rfl⟩
  refine ends_bind.2 (hrecollect.mono ?_ fun _ _ h => h.elim)
  intro found s₁ halike
  cases found with
  | some txn =>
    simp only [count, ends_bind, ends_modify, ends_pure]
    exact halike.trans ⟨rfl, rfl, rfl, rfl, rfl, rfl⟩
  | none =>
    rw [ends_bind, Ends, load_eq]
    cases s₁.stored id with
    | error e => exact halike
    | ok record =>
      cases record with
      | none => exact halike
      | some txn =>
        simp only [ends_bind, ends_get]
        split
        · exact halike.trans ⟨rfl, rfl, rfl, rfl, rfl, rfl⟩
        · exact halike

theorem resolve_alike (s : Ledger τ) (id : TxnId) : Leaves (View.resolve id) s s.Alike := by
  have hlookup : ∀ s', s.Alike s' → ∀ id, Ends (Supplier.lookup id) s'
      (fun found s'' => (∀ txn, found = some txn → True) ∧ s.Alike s'') fun _ s'' => s.Alike s'' :=
    fun s' halike id => (find_alike s' id).mono (fun _ _ h => ⟨fun _ _ => trivial, halike.trans h⟩)
      fun _ _ h => halike.trans h
  have hresolve : Ends (View.resolve id) s
      (fun view s' => Lineage (fun _ _ => True) id view.chain ∧ s.Alike s')
      fun _ s' => s.Alike s' :=
    Supplier.resolve_ends hlookup (Alike.refl s) id
  exact hresolve.mono (fun _ _ h => h.2) fun _ _ h => h

/-- The ledgers are alike with faithful caches, and the storage is available. -/
structure Twins (s s' : Ledger τ) : Prop where
  alike : s.Alike s'
  faithful : s.register.Faithful
  faithful' : s'.register.Faithful
  available : s.partition.unavailable = false

/-- Steps determined by what is known agree on twins, if only caches change. -/
theorem Twins.agree {α : Type} {steps : TxnM (Ledger τ) α} (h : s.Twins s')
    (hdetermined : Supplier.Determined s.known steps) (halike : ∀ s, Leaves steps s s.Alike) :
    Agree Alike steps steps s s' := by
  obtain ⟨result, hresult⟩ := hdetermined
  have hknown := h.alike.known h.faithful h.faithful' h.available
  have hends : ∀ t, Supplier.Steady s.known t → Ends steps t
      (fun value t' => result = .ok value ∧ t.Alike t')
      fun e t' => result = .error e ∧ t.Alike t' := by
    intro t ht
    exact ((hresult t ht).and (halike t)).mono (fun _ _ h => ⟨h.1.1, h.2⟩)
      fun _ _ h => ⟨h.1.1, h.2⟩
  have hs := hends s (steady h.faithful)
  have hs' := hends s' (hknown ▸ steady h.faithful')
  exact agree_of_ends hs hs' fun t t' ht ht' => (ht.symm.trans h.alike).trans ht'

theorem Twins.find_agree (h : s.Twins s') (id : TxnId) : Agree Alike (find id) (find id) s s' :=
  h.agree (Supplier.determined_lookup id) fun s => find_alike s id

theorem Twins.resolve_agree (h : s.Twins s') (id : TxnId) :
    Agree Alike (View.resolve id) (View.resolve id) s s' :=
  h.agree (Supplier.determined_resolve id) fun s => resolve_alike s id

theorem Twins.checkParent_agree (h : s.Twins s') (parent : TxnId) :
    Agree Alike (checkParent parent) (checkParent parent) s s' := by
  refine (h.resolve_agree parent).bind fun view t t' halike => ?_
  dsimp only
  split
  · exact agree_throw_bind _ halike
  · exact agree_pure view halike

theorem Twins.mapM_checkParent_agree (h : s.Twins s') (parent : Option TxnId) :
    Agree Alike (parent.mapM checkParent) (parent.mapM checkParent) s s' := by
  cases parent with
  | none => exact agree_pure none h.alike
  | some id =>
    rw [Option.mapM_some]
    exact (h.checkParent_agree id).map some

/-! ## Single steps -/

theorem count_agree (h : s.Alike s') (change : LedgerTally → LedgerTally) :
    Agree Alike (count change) (count change) s s' :=
  agree_modify ⟨h.partition, h.quota, h.source, h.now, h.timeout, h.timeoutSlack⟩

theorem forget_agree (h : s.Alike s') (id : TxnId) : Agree Alike (forget id) (forget id) s s' :=
  agree_modify ⟨h.partition, h.quota, h.source, h.now, h.timeout, h.timeoutSlack⟩

theorem draw_agree [TimestampSource τ] (h : s.Alike s') : Agree Alike draw draw s s' := by
  simp only [Agree, draw, h.source]
  cases TimestampSource.draw s.source <;>
    exact ⟨rfl, h.partition, h.quota, rfl, h.now, h.timeout, h.timeoutSlack⟩

theorem putSlot_agree (h : s.Alike s') (id : TxnId) (slot value : Bytes) :
    Agree Alike (putSlot id slot value) (putSlot id slot value) s s' := by
  simp only [Agree, putSlot, h.quota, h.partition]
  by_cases hquota : s.quota = some 0
  · simpa [hquota] using h
  · simp only [hquota, if_false]
    cases s.partition.put (Slot.rowKey id) slot value with
    | ok p => exact ⟨trivial, rfl, rfl, h.source, h.now, h.timeout, h.timeoutSlack⟩
    | error e => exact ⟨rfl, rfl, rfl, h.source, h.now, h.timeout, h.timeoutSlack⟩

theorem loadExisting_bind_agree {α : Type} {next : Txn → TxnM (Ledger τ) α} (h : s.Alike s')
    (hnext : ∀ txn, Agree Alike (next txn) (next txn) s s') :
    Agree Alike (loadExisting id >>= next) (loadExisting id >>= next) s s' := by
  have hload : Agree (fun t t' => t = s ∧ t' = s') (loadExisting id) (loadExisting id) s s' := by
    have hfound : Agree (fun t t' => t = s ∧ t' = s') (load id) (load id) s s' := by
      rw [Agree, load_eq, load_eq, h.stored]
      cases s.stored id <;> exact ⟨rfl, rfl, rfl⟩
    refine hfound.bind fun found t t' hsame => ?_
    cases found with
    | none => exact agree_throw _ hsame
    | some txn => exact agree_pure txn hsame
  refine hload.bind_of ?_ ?_
  · rintro t t' ⟨rfl, rfl⟩
    exact h
  · rintro txn t t' ⟨rfl, rfl⟩
    exact hnext txn

theorem writeTimeout_agree (h : s.Alike s') (id : TxnId) :
    Agree Alike (writeTimeout id) (writeTimeout id) s s' :=
  (count_agree h _).bind fun _ _ _ halike =>
    (putSlot_agree halike id _ _).tryCatch fun _ _ _ halike => agree_pure () halike

/-! ## Operations -/

theorem Twins.create_agree [TimestampSource τ] (h : s.Twins s') (parent : Option TxnId)
    (isolation : Option Isolation) (additive : Option Bool) :
    Agree Alike (create parent isolation additive) (create parent isolation additive) s s' := by
  refine (h.mapM_checkParent_agree parent).bind fun _ _ _ halike => ?_
  refine (draw_agree halike).bind fun time t t' halike => agree_get_bind ?_
  rw [halike.now]
  refine (putSlot_agree halike ..).bind fun _ _ _ halike => ?_
  refine (putSlot_agree halike ..).bind fun _ _ _ halike => ?_
  refine (putSlot_agree halike ..).bind fun _ _ _ halike => ?_
  exact (count_agree halike _).bind fun _ _ _ halike => agree_pure _ halike

theorem Twins.beginReadOnly_agree [TimestampSource τ] (h : s.Twins s') (parent : Option TxnId)
    (isolation : Option Isolation) :
    Agree Alike (beginReadOnly parent isolation) (beginReadOnly parent isolation) s s' := by
  refine (h.mapM_checkParent_agree parent).bind fun _ _ _ halike => ?_
  refine (draw_agree halike).bind fun time t t' halike => agree_get_bind ?_
  rw [halike.now]
  exact agree_pure _ halike

theorem Twins.checkCommit_agree (h : s.Twins s') (id : TxnId) :
    Agree Alike (checkCommit id) (checkCommit id) s s' := by
  refine loadExisting_bind_agree h.alike fun txn => ?_
  cases txn.state with
  | committed =>
    cases (txn.commitTime <|> txn.globalCommitTime) with
    | some time => exact agree_pure (some time) h.alike
    | none => exact agree_throw _ h.alike
  | rolledBack => exact agree_throw _ h.alike
  | active =>
    refine agree_get_bind ?_
    rw [h.alike.isSilent]
    dsimp only
    split
    · exact (writeTimeout_agree h.alike id).bind fun _ _ _ halike => agree_throw_bind _ halike
    · cases txn.parent with
      | none => exact agree_pure none h.alike
      | some parent =>
        refine (h.resolve_agree parent).bind fun view _ _ halike => ?_
        split
        · exact agree_throw_bind _ halike
        · exact agree_pure none halike

theorem Twins.commit_agree [TimestampSource τ] (h : s.Twins s') (id : TxnId) :
    Agree Alike (commit id) (commit id) s s' := by
  refine (h.checkCommit_agree id).bind fun found _ _ halike => ?_
  cases found with
  | some time => exact agree_pure time halike
  | none =>
    refine (draw_agree halike).bind fun time _ _ halike => ?_
    refine (putSlot_agree halike ..).bind fun _ _ _ halike => ?_
    refine (putSlot_agree halike ..).bind fun _ _ _ halike => ?_
    refine (count_agree halike _).bind fun _ _ _ halike => ?_
    exact (forget_agree halike id).bind fun _ _ _ halike => agree_pure time halike

theorem rollback_agree (h : s.Alike s') (id : TxnId) :
    Agree Alike (rollback id) (rollback id) s s' := by
  refine loadExisting_bind_agree h fun txn => ?_
  cases txn.state with
  | active => exact (putSlot_agree h ..).bind fun _ _ _ halike => count_agree halike _
  | committed => exact agree_throw _ h
  | rolledBack => exact agree_pure () h

theorem keepAlive_agree (h : s.Alike s') (id : TxnId) :
    Agree Alike (keepAlive id) (keepAlive id) s s' := by
  refine loadExisting_bind_agree h fun txn => ?_
  split
  · exact agree_pure false h
  · refine agree_get_bind ?_
    rw [h.isSilent]
    split
    · exact (writeTimeout_agree h id).bind fun _ _ _ halike => agree_pure false halike
    · refine agree_get_bind ?_
      rw [h.now]
      exact (putSlot_agree h ..).bind fun _ _ _ halike => agree_pure true halike

theorem recordDestination_agree (h : s.Alike s') (id : TxnId) (table : String) :
    Agree Alike (recordDestination id table) (recordDestination id table) s s' := by
  refine loadExisting_bind_agree h fun txn => agree_get_bind ?_
  rw [h.currentState]
  dsimp only
  split
  · exact agree_throw_bind _ h
  · split
    · exact agree_pure () h
    · exact (agree_ofExcept .ofSlot _ h).bind fun _ _ _ halike => putSlot_agree halike ..

theorem recordGlobalCommit_agree (h : s.Alike s') (id : TxnId) (time : Timestamp) :
    Agree Alike (recordGlobalCommit id time) (recordGlobalCommit id time) s s' := by
  refine loadExisting_bind_agree h fun txn => ?_
  dsimp only
  split
  · exact agree_throw_bind _ h
  · exact (putSlot_agree h ..).bind fun _ _ _ halike => forget_agree halike id

theorem listActive_agree (h : s.Alike s') (listing : Listing) :
    Agree Alike (listActive listing) (listActive listing) s s' := by
  have hactive : s'.activeIn listing = s.activeIn listing := by
    funext row
    rw [activeIn, activeIn, h.currentState]
  refine agree_get_bind ?_
  rw [h.partition, hactive]
  refine (agree_ofExcept .ofStorage _ h).bind fun rows _ _ halike => ?_
  exact (agree_ofExcept .ofSlot _ halike).bind fun found _ _ halike => agree_pure _ halike

end Ledger

end Mvcc
