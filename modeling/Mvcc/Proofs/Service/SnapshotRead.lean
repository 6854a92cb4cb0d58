import Mvcc.Proofs.Service.Run

/-!
# Snapshot reads

In every row that it did not write, a snapshot reader reads the version of the last transaction
committed before its begin, under all later stamps and purges.
-/

namespace Mvcc

theorem IsLatestBy.congr {time : Timestamp} {written written' : TxnId → Option (Option Bytes)}
    {commitTime : TxnId → Option Timestamp} {value : Option Bytes}
    (h : IsLatestBy time written commitTime value)
    (hwritten : ∀ id, (commitTime id).isSome → written' id = written id) :
    IsLatestBy time written' commitTime value := by
  have hcommitted : ∀ {id commit}, commitTime id = some commit → written' id = written id :=
    fun hcommit => hwritten _ (by rw [hcommit]; rfl)
  rcases h with ⟨writer, commit, hvalue, hcommit, hle, hlast⟩ | ⟨hnone, hall⟩
  · refine .inl ⟨writer, commit, (hcommitted hcommit).trans hvalue, hcommit, hle, ?_⟩
    intro other hne hother later hlater
    exact hlast other hne (hcommitted hlater ▸ hother) later hlater
  · refine .inr ⟨hnone, fun writer hwriter commit hcommit => ?_⟩
    exact hall writer (hcommitted hcommit ▸ hwriter) commit hcommit

namespace Environment

variable {env : Environment}

/-- When a transaction committed, if it counts as committed. -/
def commitTime? (env : Environment) (id : TxnId) : Option Timestamp :=
  (env.standing? id).bind fun txn => if txn.state = .committed then txn.commitTime else none

theorem register_commitTime? (h : env.store.Sound) (id : TxnId) :
    env.ledger.register.commitTime? id = env.commitTime? id := by
  have hplain : env.ledger.register.Plain := h.world.plain
  have hstanding : env.standing? id = env.ledger.register.standing? id := rfl
  unfold Register.commitTime? commitTime?
  rw [hstanding]
  cases hfound : env.ledger.register.standing? id with
  | none =>
    rw [Register.outcome?, hfound]
    rfl
  | some txn =>
    rw [hplain.outcome?_eq hfound]
    cases hstate : txn.state with
    | committed => cases hcommit : txn.commitTime <;> simp [hstate, hcommit]
    | _ => simp [hstate]

/-- In every run whose clock does not go back, a snapshot reader that did not write a row reads the
write of the last transaction to commit before it began. -/
theorem read_isLatest (settings : ServiceSettings) (mark : Mark) (now : UInt64)
    (env viewed : Environment) (ops before later : List Operation) (id : TxnId) (reader : View)
    (table : String) (row : Bytes) (hstart : start settings mark now = .ok env)
    (hforward : Forward now ops) (hample : Ample env ops)
    (hops : ops = before ++ .view id :: later)
    (hview : view id (run env before) = .ok reader viewed)
    (hisolation : reader.record.isolationLevel = .snapshot)
    (hunwritten : ∀ entry ∈ journal env ops,
      entry.table = table → entry.row = row → entry.writer ≠ id)
    (hledger : (run env ops).ledger.partition.unavailable = false)
    (htable : ((run env ops).tables.region table).unavailable = false) :
    ∃ value env', read reader table row (run env ops) = .ok value env' ∧
      IsLatestBy reader.beginTime (lastWrite? (journal env ops) table row)
        (run env ops).commitTime? value := by
  obtain ⟨hbefore, -⟩ := started_run hstart (hops ▸ hforward) (hops ▸ hample)
  obtain ⟨hend, hreflects⟩ := started_run_whole hstart hforward hample
  have hlineage := ((view_ends hbefore.ledger).of_ok hview).2.2
  have hid : reader.id = id := (hbefore.world.plain.id_of_lineage hlineage).1
  have hreader : reader.Solitary := ⟨(hbefore.world.plain.of_lineage hlineage).2, hisolation⟩
  have hown : (run env ops).store.world.values table row reader.id = none := by
    rcases hreflects table row reader.id with hvalue | ⟨hnone, -⟩
    · rw [hvalue, ← Option.not_isSome_iff_eq_none, isSome_lastWrite?_iff]
      rintro ⟨entry, hentry, rfl, rfl, hwriter⟩
      exact hunwritten entry hentry rfl rfl (hwriter.symm.trans hid)
    · exact hnone
  obtain ⟨value, env', hread, hlatest⟩ := read_isLatestBy hend hledger htable hreader hown
  refine ⟨value, env', hread, ?_⟩
  have htimes : (run env ops).ledger.register.commitTime? = (run env ops).commitTime? :=
    funext (register_commitTime? hend)
  rw [htimes] at hlatest
  refine hlatest.congr fun writer hcommitted => ?_
  obtain ⟨commit, hcommit⟩ := Option.isSome_iff_exists.1 hcommitted
  rw [← register_commitTime? hend, Register.commitTime?_eq_some_iff] at hcommit
  refine (hreflects.values_eq fun hrolledBack => ?_).symm
  cases hcommit.symm.trans hrolledBack

/-- A transaction begins between the commits of two others that write one row. -/
def betweenCommits : List Operation :=
  [.begin none none, .write 1 "accounts" [] [⟨.upsert, [1], [10]⟩], .commit 1, .begin none none]

/-- Later writes, after the read. -/
def overwriting : List Operation :=
  [.begin none none, .write 4 "accounts" [] [⟨.delete, [1], []⟩], .commit 4]

theorem read_isLatest_betweenCommits :
    ∃ reader viewed, view 3 (run fromZero betweenCommits) = .ok reader viewed ∧
      ∃ value env', read reader "accounts" [1]
          (run fromZero (betweenCommits ++ .view 3 :: overwriting)) = .ok value env' ∧
        IsLatestBy reader.beginTime
          (lastWrite? (journal fromZero (betweenCommits ++ .view 3 :: overwriting)) "accounts" [1])
          (run fromZero (betweenCommits ++ .view 3 :: overwriting)).commitTime? value :=
  ⟨_, _, rfl, read_isLatest .standard (.memory (.startingAt 0)) 1000000 fromZero _ _ betweenCommits
    overwriting 3 _ "accounts" [1] rfl
    ⟨by decide, by decide, by decide, by decide, by decide, by decide, by decide, by decide,
      trivial⟩
    (.inl (by decide)) rfl rfl rfl (by decide) rfl rfl⟩

end Environment

end Mvcc
