import Mvcc.Proofs.Service.Nested

/-!
# Reading own writes

A transaction that reads a row after writing it finds its own version, unless it sees one by a
transaction with a greater id. Such a version may be an older write: a committed child hides what
its parent writes later.
-/

namespace Mvcc

/-- The result of reading a row that holds a version of the reader, between versions of greater and
of smaller ids. -/
inductive View.ReadsOwn (shown : TxnId → View → Prop) (reader : View) (newer : List Version)
    (own : Version) (older : List Version) : Option Bytes → Prop where
  | covered {version : Version} (h : FirstJudged (reader.Judges shown) newer (some version)) :
    ReadsOwn shown reader newer own older version.value
  | own (h : FirstJudged (reader.Judges shown) newer none) (hstamp : own.stamp ≠ some .rolledBack) :
    ReadsOwn shown reader newer own older own.value
  /-- The reader's own version carries a rollback stamp. -/
  | disowned (h : FirstJudged (reader.Judges shown) newer none)
    (hstamp : own.stamp = some .rolledBack) {found : Option Version}
    (hunder : FirstJudged (reader.Judges shown) older found) :
    ReadsOwn shown reader newer own older (found.bind (·.value))

/-- A reader passes over its own version only for its stamp. -/
theorem View.readsOwn_of_judged {shown : TxnId → View → Prop} {reader : View}
    {newer older : List Version} {own : Version} {found : Option Version}
    (hown : own.writer = reader.id)
    (hshown : ∀ view, shown reader.id view → view.id = reader.id)
    (h : FirstJudged (reader.Judges shown) (newer ++ own :: older) found) :
    reader.ReadsOwn shown newer own older (found.bind (·.value)) := by
  rcases h.of_append with ⟨version, rfl, hcovered⟩ | ⟨hnone, hrest⟩
  · exact .covered hcovered
  · cases hrest with
    | found hgood =>
      refine .own hnone fun hstamp => ?_
      simp [View.Judges, hstamp] at hgood
    | passed hbad hunder =>
      refine .disowned hnone ?_ hunder
      cases hstamp : own.stamp with
      | none =>
        simp only [View.Judges, hstamp, hown] at hbad
        obtain ⟨view, hview, hunseen⟩ := hbad
        simp [View.canSee, hshown view hview] at hunseen
      | some stamp =>
        cases stamp with
        | rolledBack => rfl
        | committed time => simp [View.Judges, hstamp, hown, View.seesStamped] at hbad

namespace Environment

open TxnM

variable {env env' : Environment} {id : TxnId} {table : String} {m : Mutation}

/-- The views that look-ups in an environment may show. -/
def shown (env : Environment) (id : TxnId) (view : View) : Prop :=
  env.ledger.register.Lineage id view.chain

theorem Applied.intact (h : env.ledger.Intact) (happlied : env.Applied id table m env') :
    env'.ledger.Intact :=
  h.stepped happlied.stepped

theorem Applied.rooted (h : env.ledger.Intact) (happlied : env.Applied id table m env') :
    env'.ledger.register.Rooted id := by
  obtain ⟨txn, htxn, hlength, -⟩ := happlied.free
  have hadvances := (happlied.stepped.2.proceeds (fun _ => True) h.sound).advances
  exact Register.Rooted.of_advances ⟨_, hlength, htxn.ascends h.sound⟩ hadvances

/-- The row is listed with the new version in it, and every writer that no stamp speaks for can be
resolved. -/
theorem Applied.exists_versions (h : env.ledger.Intact)
    (happlied : env.Applied id table m env') :
    ∃ newer own older,
      (env'.tables.region table).versions m.row = .ok (newer ++ own :: older) ∧
      (own.writer = id ∧ own.value = m.written) ∧
      ((∀ version ∈ newer, id < version.writer) ∧ ∀ version ∈ older, version.writer < id) ∧
      ∀ version ∈ newer ++ own :: older, version.stamp = none →
        env'.ledger.register.Rooted version.writer := by
  obtain ⟨txn, htxn, hlength, constraints, history, hhistory, hyields⟩ := happlied.free
  have hadvances := (happlied.stepped.2.proceeds (fun _ => True) h.sound).advances
  have hid : txn.id = id := Register.Lineage.id_eq_of_sound h.sound htxn
  have hover := happlied.overwrites
  obtain ⟨listed, hlisted, -⟩ := Partition.versions_of_history hhistory
  obtain ⟨versions, hversions, hdescending, hmem⟩ := Partition.exists_versions
    (hover.legible (Partition.legibleAt_of_versions hlisted))
    (hover.unavailable.trans (Partition.available_of_versions hlisted))
  have hrooted : ∀ version ∈ versions, version.stamp = none →
      env'.ledger.register.Rooted version.writer := by
    intro version hversion hstamp
    by_cases hwriter : version.writer = id
    · rw [hwriter]
      exact happlied.rooted h
    · obtain ⟨-, hvalue, hfound⟩ := Partition.version?_eq_some_iff.1 ((hmem version).1 hversion)
      rw [hover.value? _ hwriter] at hvalue
      rw [hover.stamp?, hstamp] at hfound
      have hentry := Partition.mem_history hhistory (Option.isSome_of_eq_some hvalue)
      rw [hfound] at hentry
      exact ((hyields _ hentry).rooted h.sound (hid ▸ hwriter)).of_advances hadvances
  have hown : ⟨id, m.written, (env'.tables.region table).stamp? m.row id⟩ ∈ versions :=
    (hmem _).2 (Partition.version?_eq_some_iff.2 ⟨rfl, happlied.written, rfl⟩)
  obtain ⟨newer, older, rfl⟩ := List.append_of_mem hown
  obtain ⟨-, holder, hnewer⟩ := List.pairwise_append.1 hdescending
  exact ⟨newer, _, older, hversions, ⟨rfl, rfl⟩, ⟨fun version hversion =>
    hnewer version hversion _ List.mem_cons_self, (List.pairwise_cons.1 holder).1⟩, hrooted⟩

/-- In every history of an environment: a transaction that has just written a batch can be viewed
and can read every row of it. Its own version holds the last mutation of the row, and this is what
it reads, unless it sees a version with a greater id or its own one is stamped as rolled back. -/
theorem read_written (settings : ServiceSettings) (mark : Mark) (now : UInt64)
    (started written : Environment) (acts : List Activity) (id : TxnId) (table : String)
    (constraints : List Constraint) (before later : List Mutation) (m : Mutation)
    (outcome : BatchOutcome) (hstart : start settings mark now = .ok started)
    (hprovided : Provided started acts) (hlast : ∀ other ∈ later, other.row ≠ m.row)
    (hwrite : write id table constraints (before ++ m :: later) (live started acts) =
      .ok outcome written)
    (hsuccess : outcome.isSuccess = true) :
    ∃ reader viewed value left newer own older,
      (view id written = .ok reader viewed ∧ reader.id = id) ∧
      read reader table m.row viewed = .ok value left ∧
      (written.tables.region table).versions m.row = .ok (newer ++ own :: older) ∧
      (own.writer = id ∧ own.value = m.written) ∧
      ((∀ version ∈ newer, id < version.writer) ∧ ∀ version ∈ older, version.writer < id) ∧
      reader.ReadsOwn written.shown newer own older value := by
  have hintact := intact_live (start_intact hstart) hprovided
  have happlied := applied_of_write hintact.legible hlast hwrite hsuccess
  have hwritten := happlied.intact hintact
  have hresolve : ∀ {writer}, written.ledger.register.Rooted writer → ∀ s,
      written.ledger.Looked s → Ends (View.resolve writer) s
        (fun view s' => written.shown writer view ∧ written.ledger.Looked s') fun _ _ => False := by
    intro writer hrooted s hlooked
    exact Ledger.resolve_of_rooted hwritten.sound happlied.serving hrooted hlooked
  have hview : Ends (view id) written (fun reader viewed => written.shown id reader ∧
      written.ledger.Looked viewed.ledger ∧ viewed.tables = written.tables) fun _ _ => False := by
    refine ends_within.2 ((hresolve (happlied.rooted hintact) _ (.refl hwritten.legible)).mono ?_
      (fun _ _ h => h))
    exact fun _ _ h => ⟨h.1, h.2, rfl⟩
  obtain ⟨reader, viewed, hviewed, hshown, hlooked, htables⟩ := hview.exists_ok
  have hid : reader.id = id := Register.Lineage.id_eq_of_sound hwritten.sound hshown
  obtain ⟨newer, own, older, hversions, hown, hordered, hrooted⟩ := happlied.exists_versions hintact
  obtain ⟨found, hfirst, hanswer⟩ := firstVisible_judged hlooked reader (newer ++ own :: older)
    fun version hversion hstamp => hresolve (hrooted version hversion hstamp)
  obtain ⟨left, hread⟩ := exists_read (htables ▸ hversions) hanswer
  refine ⟨reader, viewed, _, left, newer, own, older, ⟨hviewed, hid⟩, hread, hversions, hown,
    hordered, View.readsOwn_of_judged (hown.1.trans hid.symm) ?_ hfirst⟩
  intro view hfound
  exact Register.Lineage.id_eq_of_sound hwritten.sound hfound

/-- A child has written a row and is still active. -/
@[irreducible] def besideChild : List Activity :=
  [.operation (.begin none none), .beginBelow 1 none none,
    .operation (.write 2 "accounts" [] [⟨.upsert, [1], [97]⟩])]

/-- Its parent writes the row too, twice in one batch. -/
theorem read_written_besideChild :
    ∃ outcome written, write 1 "accounts" [] [⟨.insert, [1], [96]⟩, ⟨.upsert, [1], [98]⟩,
        ⟨.delete, [2], []⟩] (live fromZero besideChild) = .ok outcome written ∧
      outcome.isSuccess = true ∧ ∃ reader viewed value left newer own older,
        (view 1 written = .ok reader viewed ∧ reader.id = 1) ∧
        read reader "accounts" [1] viewed = .ok value left ∧
        (written.tables.region "accounts").versions [1] = .ok (newer ++ own :: older) ∧
        (own.writer = 1 ∧ own.value = some [98]) ∧
        ((∀ version ∈ newer, 1 < version.writer) ∧ ∀ version ∈ older, version.writer < 1) ∧
        reader.ReadsOwn written.shown newer own older value := by
  have hwrites : Ends (write 1 "accounts" [] [⟨.insert, [1], [96]⟩, ⟨.upsert, [1], [98]⟩,
      ⟨.delete, [2], []⟩]) (live fromZero besideChild)
      (fun outcome _ => outcome.isSuccess = true) fun _ _ => False := by decide +kernel
  obtain ⟨outcome, written, hwrite, hsuccess⟩ := hwrites.exists_ok
  have hprovided : Provided fromZero besideChild := by
    unfold besideChild
    exact ⟨fun _ => by decide, fun _ => by decide +kernel, nofun, trivial⟩
  exact ⟨outcome, written, hwrite, hsuccess, read_written .standard (.memory (.startingAt 0))
    1000000 fromZero written besideChild 1 "accounts" [] [⟨.insert, [1], [96]⟩] [⟨.delete, [2], []⟩]
    ⟨.upsert, [1], [98]⟩ outcome rfl hprovided (by decide) hwrite hsuccess⟩

/-- A committed child's write covers a later write of its parent: the parent has just written one
value and reads the other. -/
theorem read_written_of_handedUp :
    Ends (do
        let outcome ← write 1 "accounts" [] [⟨.upsert, [1], [98]⟩]
        let reader ← view 1
        let value ← read reader "accounts" [1]
        pure (outcome.isSuccess, value))
      (live fromZero (besideChild ++ [.operation (.commit 2)]))
      (fun answer _ => answer = (true, some [97])) fun _ _ => False := by
  decide +kernel

end Environment

end Mvcc
