import Mvcc.Proofs.Service.Writing
import Mvcc.Proofs.Snapshot.Walk

/-!
# Snapshots of a row

A read walks over the versions of a row by descending writer id and returns the first one committed
when the reader began. Writers of one row do not overlap, so this is the version committed last.
-/

namespace Mvcc

open TxnM

/-- The value is that of the last writer to commit by `time`, none without such a writer. -/
def IsLatestBy (time : Timestamp) (written : TxnId → Option (Option Bytes))
    (commitTime : TxnId → Option Timestamp) (value : Option Bytes) : Prop :=
  (∃ writer commit, written writer = some value ∧ commitTime writer = some commit ∧
    commit ≤ time ∧ ∀ other, other ≠ writer → (written other).isSome →
      ∀ later, commitTime other = some later → later ≤ time → later < commit) ∨
  (value = none ∧ ∀ writer, (written writer).isSome →
    ∀ commit, commitTime writer = some commit → ¬ commit ≤ time)

/-- The writer is the newest of those that are `seen`. -/
structure NewestSeen (seen : TxnId → Bool) (written : TxnId → Option (Option Bytes))
    (writer : TxnId) : Prop where
  isWritten : (written writer).isSome
  isSeen : seen writer = true
  newest {other : TxnId} (hlt : writer < other) (h : (written other).isSome) : seen other = false

/-- The value is that of the newest writer that is `seen`, none without one. -/
def IsNewest (seen : TxnId → Bool) (written : TxnId → Option (Option Bytes))
    (value : Option Bytes) : Prop :=
  (∃ writer, NewestSeen seen written writer ∧ written writer = some value) ∨
    value = none ∧ ∀ writer, (written writer).isSome → seen writer = false

section

variable {seen : TxnId → Bool} {written : TxnId → Option (Option Bytes)}

theorem NewestSeen.unique {writer writer' : TxnId} (h : NewestSeen seen written writer)
    (h' : NewestSeen seen written writer') : writer = writer' := by
  rcases Std.lt_trichotomy writer writer' with hlt | heq | hgt
  · exact absurd h'.isSeen (by simp [h.newest hlt h'.isWritten])
  · exact heq
  · exact absurd h.isSeen (by simp [h'.newest hgt h.isWritten])

theorem isNewest_find {versions : List Version}
    (hdescending : versions.Pairwise fun newer older => older.writer < newer.writer)
    (hmem : ∀ version ∈ versions, written version.writer = some version.value)
    (hall : ∀ writer, (written writer).isSome → ∃ version ∈ versions, version.writer = writer) :
    IsNewest seen written
      ((versions.find? fun version => seen version.writer).bind (·.value)) := by
  cases hfound : versions.find? fun version => seen version.writer with
  | none =>
    refine .inr ⟨rfl, fun writer hwriter => ?_⟩
    obtain ⟨version, hversion, rfl⟩ := hall writer hwriter
    simpa using List.find?_eq_none.1 hfound version hversion
  | some version =>
    obtain ⟨hseen, newer, older, rfl, hnewer⟩ := List.find?_eq_some_iff_append.1 hfound
    have hvalue := hmem version (by simp)
    refine .inl ⟨version.writer, ⟨by rw [hvalue]; rfl, hseen, ?_⟩, hvalue⟩
    intro other hlt hother
    obtain ⟨found, hfound', rfl⟩ := hall other hother
    rcases List.mem_append.1 hfound' with hbefore | hafter
    · simpa using hnewer found hbefore
    · rcases List.mem_cons.1 hafter with rfl | hafter
      · exact absurd hlt (UInt64.lt_irrefl _)
      · have hgt := (List.pairwise_cons.1 (List.pairwise_append.1 hdescending).2.1).1 found hafter
        exact absurd hlt (UInt64.lt_asymm hgt)

end

namespace Register

variable {τ : Type} {r r' : Register τ} {id : TxnId} {time : Timestamp}

def commitTime? (r : Register τ) (id : TxnId) : Option Timestamp :=
  match r.outcome? id with
  | some (.committed time) => some time
  | _ => none

theorem commitTime?_eq_some_iff :
    r.commitTime? id = some time ↔ r.outcome? id = some (.committed time) := by
  unfold commitTime?
  split
  · rename_i commit houtcome
    rw [houtcome, Option.some.injEq, Option.some.injEq, Stamp.committed.injEq]
  · rename_i hother
    constructor
    · nofun
    · exact fun houtcome => absurd houtcome (hother time)

def committedBy (r : Register τ) (id : TxnId) (time : Timestamp) : Bool :=
  (r.commitTime? id).any (· ≤ time)

theorem committedBy_iff : r.committedBy id time = true ↔
    ∃ commit, r.outcome? id = some (.committed commit) ∧ commit ≤ time := by
  simp only [committedBy, Option.any_eq_true, decide_eq_true_eq, commitTime?_eq_some_iff]

theorem committedBy_of_committed {commit : Timestamp}
    (h : r.outcome? id = some (.committed commit)) :
    r.committedBy id time = decide (commit ≤ time) := by
  simp [committedBy, commitTime?, h]

theorem committedBy_of_rolledBack (h : r.outcome? id = some .rolledBack) :
    r.committedBy id time = false := by
  simp [committedBy, commitTime?, h]

end Register

/-! ## Visible versions -/

section

variable {s : Ledger Oracle} {reader : View}

/-- A reader that takes snapshots and has no ancestors. -/
structure View.Solitary (reader : View) : Prop where
  root : reader.ancestors = []
  snapshot : reader.record.isolationLevel = .snapshot

theorem View.Solitary.seesStamped (h : reader.Solitary) {writer : TxnId}
    (hother : writer ≠ reader.id) (time : Timestamp) :
    reader.seesStamped writer time = decide (time ≤ reader.beginTime) := by
  simp [View.seesStamped, View.descendsFrom, h.root, h.snapshot, hother]

theorem View.Solitary.canSee (h : reader.Solitary) {writer : View} (hother : writer.id ≠ reader.id)
    (hroot : writer.ancestors = []) :
    reader.canSee writer = writer.committedBy reader.beginTime := by
  simp [View.canSee, View.descendsFrom, h.root, h.snapshot, hother, hroot]

theorem View.Solitary.eq_committedBy_of_judges (hreader : reader.Solitary)
    (h : s.register.Plain) {version : Version} (hother : version.writer ≠ reader.id)
    (hstamp : ∀ stamp, version.stamp = some stamp →
      s.register.outcome? version.writer = some stamp) {verdict : Bool}
    (hverdict : reader.Judges (fun id view => s.register.Lineage id view.chain) version verdict) :
    verdict = s.register.committedBy version.writer reader.beginTime := by
  unfold View.Judges at hverdict
  cases hfound : version.stamp with
  | some stamp =>
    have houtcome := hstamp stamp hfound
    cases stamp with
    | rolledBack =>
      rw [hfound] at hverdict
      rw [hverdict, Register.committedBy_of_rolledBack houtcome]
    | committed time =>
      rw [hfound] at hverdict
      rw [hverdict, hreader.seesStamped hother, Register.committedBy_of_committed houtcome]
  | none =>
    rw [hfound] at hverdict
    obtain ⟨view, hview, rfl⟩ := hverdict
    have hid := (h.id_of_lineage hview).1
    rw [hreader.canSee (hid ▸ hother) (h.of_lineage hview).2, Bool.eq_iff_iff,
      View.committedBy_iff, Register.committedBy_iff, h.outcome_of_lineage hview]

/-- The answer is the value of the first version committed before the reader began. -/
theorem firstVisible_answer (h : s.register.Plain) (hs : s.Legible)
    (hserving : s.register.serving = true) (hreader : reader.Solitary) (versions : List Version)
    (hversions : ∀ version ∈ versions, version.writer ≠ reader.id ∧
      (s.register.records version.writer).isSome ∧
      ∀ stamp, version.stamp = some stamp → s.register.outcome? version.writer = some stamp) :
    (firstVisible reader versions s).1.answer = .ok ((versions.find? fun version =>
      s.register.committedBy version.writer reader.beginTime).bind (·.value)) := by
  have hresolve : ∀ version ∈ versions, version.stamp = none → ∀ s', s.Looked s' →
      Ends (View.resolve version.writer) s'
        (fun view s'' => s.register.Lineage version.writer view.chain ∧ s.Looked s'')
        fun _ _ => False := by
    intro version hversion _ s' hlooked
    exact Ledger.resolve_of_rooted h.sound hserving (h.rooted (hversions version hversion).2.1)
      hlooked
  obtain ⟨found, hfirst, hanswer⟩ := @firstVisible_judged _ _ s.Looked s
    (fun id view => s.register.Lineage id view.chain) (.refl hs) reader versions hresolve
  rw [hanswer, hfirst.eq_find?]
  intro version hversion verdict hverdict
  obtain ⟨hother, -, hstamp⟩ := hversions version hversion
  exact hreader.eq_committedBy_of_judges h hother hstamp hverdict

theorem readRow_isNewest {region : Partition} {row : Bytes} (h : s.register.Plain) (hs : s.Legible)
    (hserving : s.register.serving = true) (hreader : reader.Solitary)
    (hlegible : region.LegibleAt row) (havailable : region.unavailable = false)
    (hown : region.value? row reader.id = none)
    (hwritten : ∀ writer, (region.value? row writer).isSome →
      (s.register.records writer).isSome)
    (hstamped : ∀ writer stamp, region.stamp? row writer = some stamp →
      s.register.outcome? writer = some stamp) :
    ∃ value, (readRow region reader row s).1.answer = .ok value ∧
      IsNewest (s.register.committedBy · reader.beginTime) (region.value? row) value := by
  obtain ⟨versions, hversions, hdescending, hmem⟩ :=
    Partition.exists_versions hlegible havailable
  have hfound : ∀ version ∈ versions, region.value? row version.writer = some version.value ∧
      region.stamp? row version.writer = version.stamp := fun version hversion =>
    (Partition.version?_eq_some_iff.1 ((hmem version).1 hversion)).2
  have hanswer := firstVisible_answer h hs hserving hreader versions fun version hversion => by
    obtain ⟨hvalue, hstamp⟩ := hfound version hversion
    refine ⟨?_, hwritten _ (by rw [hvalue]; rfl), fun stamp hstamped' => ?_⟩
    · rintro hsame
      rw [hsame, hown] at hvalue
      cases hvalue
    · exact hstamped _ stamp (hstamp.trans hstamped')
  have hall : ∀ writer, (region.value? row writer).isSome →
      ∃ version ∈ versions, version.writer = writer := by
    intro writer hwriter
    obtain ⟨value, hvalue⟩ := Option.isSome_iff_exists.1 hwriter
    refine ⟨⟨writer, value, region.stamp? row writer⟩, (hmem _).2 ?_, rfl⟩
    exact Partition.version?_eq_some_iff.2 ⟨rfl, hvalue, rfl⟩
  refine ⟨_, ?_, isNewest_find hdescending (fun version hversion => (hfound version hversion).1)
    hall⟩
  simp only [readRow, hversions]
  exact hanswer

theorem readRow_looked (hs : s.Legible) (region : Partition) (reader : View) (row : Bytes) :
    s.Looked (readRow region reader row s).2 := by
  unfold readRow
  cases region.versions row with
  | error fault => exact .refl hs
  | ok versions =>
    exact firstVisible_keeps (fun _ => Ledger.Looked.resolve) (.refl hs) reader versions

end

/-! ## Snapshots -/

/-- Of the writers of a row, a later one committed later. -/
theorem World.Sound.committed_lt {w : World} (h : w.Sound) {table : String} {row : Bytes}
    {older newer : TxnId} (hlt : older < newer) (holder : (w.values table row older).isSome)
    (hnewer : (w.values table row newer).isSome) {earlier later : Timestamp}
    (hearlier : w.register.outcome? older = some (.committed earlier))
    (hlater : w.register.outcome? newer = some (.committed later)) : earlier < later := by
  have hbegan := (h.plain.lt_of_committed hlater).1
  have hbegan' := (h.plain.lt_of_committed hearlier).1
  rcases h.apart holder hnewer (UInt64.ne_of_lt hlt) with hends | hends
  · rcases hends with hrolledBack | ⟨time, htime, hle⟩
    · cases hrolledBack.symm.trans hearlier
    · cases htime.symm.trans hearlier
      exact UInt64.lt_of_le_of_lt hle hbegan
  · rcases hends with hrolledBack | ⟨time, htime, hle⟩
    · cases hrolledBack.symm.trans hlater
    · cases htime.symm.trans hlater
      grind

/-- The newest version committed by a time is the latest one. -/
theorem World.Sound.isLatestBy {w : World} (h : w.Sound) {table : String} {row : Bytes}
    {time : Timestamp} {value : Option Bytes}
    (hnewest : IsNewest (w.register.committedBy · time) (w.values table row) value) :
    IsLatestBy time (w.values table row) w.register.commitTime? value := by
  have hby : ∀ {id commit}, w.register.commitTime? id = some commit → commit ≤ time →
      w.register.committedBy id time = true := fun hcommit hle =>
    Register.committedBy_iff.2 ⟨_, Register.commitTime?_eq_some_iff.1 hcommit, hle⟩
  rcases hnewest with ⟨writer, hseen, hvalue⟩ | ⟨hnone, hall⟩
  · obtain ⟨commit, houtcome, hle⟩ := Register.committedBy_iff.1 hseen.isSeen
    refine .inl ⟨writer, commit, hvalue, Register.commitTime?_eq_some_iff.2 houtcome, hle, ?_⟩
    intro other hne hother later hlater hle'
    -- Newer writers committed later, and lifetimes on one row are disjoint, so an older writer
    -- committed before this one.
    rcases Std.lt_trichotomy other writer with hlt | heq | hgt
    · rw [Register.commitTime?_eq_some_iff] at hlater
      exact h.committed_lt hlt hother hseen.isWritten hlater houtcome
    · exact absurd heq hne
    · exact absurd (hby hlater hle') (by simp [hseen.newest hgt hother])
  · refine .inr ⟨hnone, fun writer hwriter commit hcommit hle => ?_⟩
    exact absurd (hby hcommit hle) (by simp [hall writer hwriter])

namespace Environment

variable {env : Environment} {reader : View} {table : String} {row : Bytes}

theorem offer_store (event : ResolveEvent) : (env.offer event).2.store = env.store := by
  unfold offer
  split
  · rfl
  · split <;> rfl

theorem offerAll_store (reported : Bool) (writers : List TxnId) :
    (env.offerAll table row reported writers).store = env.store := by
  unfold offerAll
  induction writers generalizing env with
  | nil => rfl
  | cons writer writers ih => rw [List.foldl_cons, ih, offer_store]

theorem exists_read_of_answer {value : Option Bytes}
    (h : (readRow (env.tables.region table) reader row env.ledger).1.answer = .ok value) :
    ∃ env', read reader table row env = .ok value env' := by
  simp only [read, h]
  exact ⟨_, rfl⟩

/-- A read of a row that can be listed answers what a walk over its versions answers. -/
theorem exists_read {versions : List Version} {value : Option Bytes}
    (hversions : (env.tables.region table).versions row = .ok versions)
    (h : (firstVisible reader versions env.ledger).1.answer = .ok value) :
    ∃ env', read reader table row env = .ok value env' := by
  refine exists_read_of_answer ?_
  simp only [readRow, hversions]
  exact h

theorem read_looked (h : env.ledger.Legible) (reader : View) (table : String) (row : Bytes) :
    Leaves (read reader table row) env
      fun env' => env.ledger.Looked env'.ledger ∧ env'.tables = env.tables := by
  have hlooked := readRow_looked h (env.tables.region table) reader row
  have hoffered : ∀ {env' : Environment}, env'.store =
      ⟨(readRow (env.tables.region table) reader row env.ledger).2, env.tables⟩ →
        env.ledger.Looked env'.ledger ∧ env'.tables = env.tables := by
    intro env' hstore
    have hledger : env'.ledger = _ := congrArg Store.ledger hstore
    rw [hledger]
    exact ⟨hlooked, congrArg Store.tables hstore⟩
  unfold Leaves Ends read
  cases hanswer : (readRow (env.tables.region table) reader row env.ledger).1.answer with
  | ok value =>
    simp only [hanswer]
    exact hoffered (offerAll_store ..)
  | error e =>
    simp only [hanswer]
    exact hoffered (offerAll_store ..)

theorem read_ends (h : env.store.Sound) (reader : View) (table : String) (row : Bytes) :
    Leaves (read reader table row) env fun env' => env.store.Moves [] env'.store :=
  (read_looked h.ledger reader table row).imp fun _ h' => moves_of_stepped h h'.1.stepped h'.2

/-- A snapshot read of a row not written by the reader gives the write of the last transaction to
commit before the reader began. -/
theorem read_isLatestBy (h : env.store.Sound) (hledger : env.ledger.partition.unavailable = false)
    (htable : (env.tables.region table).unavailable = false) (hreader : reader.Solitary)
    (hown : env.store.world.values table row reader.id = none) :
    ∃ value env', read reader table row env = .ok value env' ∧
      IsLatestBy reader.beginTime (env.store.world.values table row)
        env.ledger.register.commitTime? value := by
  have hserving := Ledger.serving_iff.2 hledger
  obtain ⟨value, hanswer, hnewest⟩ := readRow_isNewest h.world.plain h.ledger hserving hreader
    (h.tables table row) htable hown (fun _ => h.world.written) fun _ _ => h.world.stamped
  obtain ⟨env', hread⟩ := exists_read_of_answer hanswer
  exact ⟨value, env', hread, h.world.isLatestBy hnewest⟩

end Environment

end Mvcc
