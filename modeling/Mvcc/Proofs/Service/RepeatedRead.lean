import Mvcc.Proofs.Service.Traffic

/-!
# Repeated reads

A commit draws its timestamp before storing it. A reader that begins in between reads the row first
without that commit and later with it. No other step changes what a snapshot reads.
-/

namespace Mvcc.Traffic

variable {t first second : Traffic} {event : Event} {events : List Event} {reader : View}
  {table : String} {row : Bytes}

/-- Whether a reader counts a transaction as committed in its snapshot. -/
def inSnapshot (t : Traffic) (reader : View) (id : TxnId) : Bool :=
  t.ledger.register.committedBy id reader.beginTime

/-- A writer that had drawn a commit time at `first`, no later than the reader's begin, wrote the
newest version visible at `second`. -/
def Overtakes (first second : Traffic) (reader : View) (table : String) (row : Bytes)
    (writer : TxnId) : Prop :=
  (∃ time, time ≤ reader.beginTime ∧ first.commits writer = some (.drawn time)) ∧
    NewestSeen (second.inSnapshot reader) (second.written? table row) writer

/-! ## One read -/

theorem Sound.exists_answer (h : t.Sound) (hreader : reader.Solitary)
    (hown : t.written? table row reader.id = none) :
    ∃ value, t.answer reader table row = .ok value ∧
      IsNewest (t.inSnapshot reader) (t.written? table row) value :=
  readRow_isNewest h.plain h.legible h.serving hreader (h.tables table row) (h.available table)
    hown (fun _ => h.known) fun writer _ hstamp =>
      nomatch (h.unstamped table row writer).symm.trans hstamp

theorem written?_step {id : TxnId} (hunwritten : ∀ value, event ≠ .write id table row value)
    (h : t.written? table row id = none) : (t.step event).written? table row id = none := by
  cases event with
  | begin isolation additive =>
    simp only [step]
    split <;> exact h
  | write writer table' row' value =>
    simp only [step]
    split
    · rename_i hwrite
      rw [written?_of_writeVersion hwrite, if_neg]
      · exact h
      · rintro ⟨rfl, rfl, rfl⟩
        exact hunwritten value rfl
    · exact h
  | commit id =>
    simp only [step]
    split <;> exact h
  | proceed id =>
    simp only [step]
    split <;> exact h
  | read reader table row => exact h

theorem written?_run {id : TxnId} (hunwritten : ∀ value, .write id table row value ∉ events)
    (h : t.written? table row id = none) : (t.run events).written? table row id = none := by
  induction events generalizing t with
  | nil => exact h
  | cons event events ih =>
    refine ih (fun value hmem => hunwritten value (List.mem_cons_of_mem event hmem)) ?_
    exact written?_step (fun value hevent => hunwritten value (by simp [hevent])) h

/-! ## Two reads -/

section

variable (h : first.Sound) (hfollows : first.Follows second)

include hfollows in
/-- Snapshots only grow. -/
theorem Follows.inSnapshot {id : TxnId} (hseen : first.inSnapshot reader id = true) :
    second.inSnapshot reader id = true := by
  obtain ⟨commit, houtcome, hle⟩ := Register.committedBy_iff.1 hseen
  exact Register.committedBy_iff.2 ⟨commit, hfollows.settles.outcome? houtcome, hle⟩

include hfollows in
/-- A transaction that enters the snapshot later had drawn its commit time before. -/
theorem Follows.entered (hbegan : reader.beginTime ≤ first.ledger.register.latest) {id : TxnId}
    (hseen : second.inSnapshot reader id = true) : first.inSnapshot reader id = true ∨
      ∃ time, time ≤ reader.beginTime ∧ first.commits id = some (.drawn time) := by
  obtain ⟨commit, houtcome, hle⟩ := Register.committedBy_iff.1 hseen
  rcases hfollows.committed houtcome with hbefore | hdrawn | hlater
  · exact .inl (Register.committedBy_iff.2 ⟨commit, hbefore, hle⟩)
  · exact .inr ⟨commit, hle, hdrawn⟩
  · have hlate : first.ledger.register.latest < first.ledger.register.latest :=
      UInt64.lt_of_lt_of_le hlater (UInt64.le_trans hle hbegan)
    exact absurd hlate (UInt64.lt_irrefl _)

include h in
theorem Sound.asked_of_inSnapshot {id : TxnId} (hseen : first.inSnapshot reader id = true) :
    (first.commits id).isSome := by
  obtain ⟨commit, houtcome, -⟩ := Register.committedBy_iff.1 hseen
  cases hcommits : first.commits id with
  | some stage => rfl
  | none => exact absurd houtcome (h.unasked hcommits commit)

include h hfollows in
theorem written?_of_inSnapshot (hbegan : reader.beginTime ≤ first.ledger.register.latest)
    {id : TxnId} (hseen : second.inSnapshot reader id = true) :
    second.written? table row id = first.written? table row id := by
  refine hfollows.written? ?_ table row
  rcases hfollows.entered hbegan hseen with hbefore | ⟨time, -, hdrawn⟩
  · exact h.asked_of_inSnapshot hbefore
  · rw [hdrawn]
    rfl

include h hfollows in
/-- Unless it is overtaken, the newest visible version stays the newest. -/
theorem newest_or_overtakes (hbegan : reader.beginTime ≤ first.ledger.register.latest)
    {writer : TxnId}
    (hnewest : NewestSeen (second.inSnapshot reader) (second.written? table row) writer) :
    first.Overtakes second reader table row writer ∨
      NewestSeen (first.inSnapshot reader) (first.written? table row) writer := by
  rcases hfollows.entered hbegan hnewest.isSeen with hseen | hdrawn
  · refine .inr ⟨?_, hseen, fun {other} hlt hother => ?_⟩
    · rw [← written?_of_inSnapshot h hfollows hbegan hnewest.isSeen]
      exact hnewest.isWritten
    · cases hother' : first.inSnapshot reader other with
      | false => rfl
      | true =>
        have hlater := hfollows.inSnapshot hother'
        rw [← written?_of_inSnapshot h hfollows hbegan hlater] at hother
        exact hlater.symm.trans (hnewest.newest hlt hother)
  · exact .inl ⟨hdrawn, hnewest⟩

include h hfollows in
theorem again_eq_iff (hbegan : reader.beginTime ≤ first.ledger.register.latest)
    {value again : Option Bytes}
    (hvalue : IsNewest (first.inSnapshot reader) (first.written? table row) value)
    (hagain : IsNewest (second.inSnapshot reader) (second.written? table row) again) :
    again = value ↔ ∀ writer, first.Overtakes second reader table row writer →
      second.written? table row writer = some value := by
  rcases hagain with ⟨writer, hnewest, hwritten⟩ | ⟨rfl, hnobody⟩
  · have hsole : ∀ other, first.Overtakes second reader table row other → other = writer :=
      fun other hother => hother.2.unique hnewest
    rcases newest_or_overtakes h hfollows hbegan hnewest with hovertakes | hbefore
    · constructor
      · rintro rfl other hother
        rw [hsole other hother]
        exact hwritten
      · intro hall
        exact Option.some.inj (hwritten.symm.trans (hall writer hovertakes))
    · have hsame : second.written? table row writer = some value := by
        rw [written?_of_inSnapshot h hfollows hbegan hnewest.isSeen]
        rcases hvalue with ⟨other, hother, hvalue⟩ | ⟨-, hnobody⟩
        · rw [hbefore.unique hother]
          exact hvalue
        · exact absurd hbefore.isSeen (by simp [hnobody writer hbefore.isWritten])
      refine iff_of_true (Option.some.inj (hwritten.symm.trans hsame)) fun other hother => ?_
      rw [hsole other hother]
      exact hsame
  · refine iff_of_true ?_ fun other hother => ?_
    · rcases hvalue with ⟨writer, hnewest, -⟩ | ⟨rfl, -⟩
      · have hseen := hfollows.inSnapshot hnewest.isSeen
        have hwritten := hnewest.isWritten
        rw [← written?_of_inSnapshot h hfollows hbegan hseen] at hwritten
        exact absurd hseen (by simp [hnobody writer hwritten])
      · rfl
    · exact absurd hother.2.isSeen (by simp [hnobody other hother.2.isWritten])

end

/-- For every interleaving of commits, step by step, with other operations: a snapshot reader that
did not write a row reads the same value again, unless the newest visible version is by then another
one, whose writer had drawn its commit time before the first read, no later than the reader began,
and not yet stored it. -/
theorem read_again_eq_iff (name : String) (oracle : Oracle) (now : UInt64) (settings : TxnSettings)
    (before between : List Event) (reader : View) (table : String) (row : Bytes)
    (hample : Ample (idle name oracle now settings) (before ++ between))
    (hroot : reader.ancestors = []) (hisolation : reader.record.isolationLevel = .snapshot)
    (hbegan : reader.beginTime ≤
      ((idle name oracle now settings).run before).ledger.source.counter)
    (hunwritten : ∀ value, .write reader.id table row value ∉ before ++ between) :
    ∃ value again,
      ((idle name oracle now settings).run before).answer reader table row = .ok value ∧
      ((idle name oracle now settings).run (before ++ between)).answer reader table row =
        .ok again ∧
      (again = value ↔ ∀ writer,
        ((idle name oracle now settings).run before).Overtakes
          ((idle name oracle now settings).run (before ++ between)) reader table row writer →
        ((idle name oracle now settings).run (before ++ between)).written? table row writer =
          some value) := by
  have hreader : reader.Solitary := ⟨hroot, hisolation⟩
  obtain ⟨hfirst, -, hrest⟩ := run_follows (sound_idle name oracle now settings) hample
  rw [← List.append_nil between] at hrest
  obtain ⟨hsecond, hfollows, -⟩ := run_follows hfirst hrest
  rw [← run_append] at hsecond hfollows
  have hnothing : (idle name oracle now settings).written? table row reader.id = none := rfl
  have hown : ((idle name oracle now settings).run before).written? table row reader.id = none :=
    written?_run (fun value hmem => hunwritten value (List.mem_append_left between hmem)) hnothing
  obtain ⟨value, hanswer, hvalue⟩ := hfirst.exists_answer hreader hown
  obtain ⟨again, hanswer', hagain⟩ :=
    hsecond.exists_answer hreader (written?_run hunwritten hnothing)
  exact ⟨value, again, hanswer, hanswer', again_eq_iff hfirst hfollows hbegan hvalue hagain⟩

/-- Traffic on a ledger whose oracle is at zero. -/
def fromZero : Traffic :=
  idle "stratum_txn" ⟨.memory (.startingAt 0), 0, 0, 8192, 0, 0⟩ 1000000 .standard

/-- A reader begins after the check of another transaction's commit and before it draws its time. -/
def beforeDraw : List Event :=
  [.begin none none, .write 1 "accounts" [1] (some [10]), .commit 1, .proceed 1, .begin none none]

theorem read_again_eq_beforeDraw :
    ∃ reader s, View.resolve 2 (fromZero.run beforeDraw).ledger = .ok reader s ∧
      ∃ value again, (fromZero.run beforeDraw).answer reader "accounts" [1] = .ok value ∧
        (fromZero.run (beforeDraw ++ [.proceed 1, .proceed 1])).answer reader "accounts" [1] =
          .ok again ∧
        (again = value ↔ ∀ writer, (fromZero.run beforeDraw).Overtakes
            (fromZero.run (beforeDraw ++ [.proceed 1, .proceed 1])) reader "accounts" [1] writer →
          (fromZero.run (beforeDraw ++ [.proceed 1, .proceed 1])).written? "accounts" [1] writer =
            some value) :=
  ⟨_, _, rfl, read_again_eq_iff _ _ _ _ beforeDraw [.proceed 1, .proceed 1] _ "accounts" [1]
    (.inl (by decide +kernel)) rfl rfl (by decide +kernel) fun value => by
      change Event.write 2 "accounts" [1] value ∉ _
      simp [beforeDraw]⟩

/-- A reader begins after another transaction's commit has drawn its time and before that is stored.
-/
def afterDraw : List Event :=
  [.begin none none, .write 1 "accounts" [1] (some [10]), .commit 1, .proceed 1, .proceed 1,
    .begin none none]

theorem read_again_ne_afterDraw :
    ∃ reader s, View.resolve 3 (fromZero.run afterDraw).ledger = .ok reader s ∧
      reader.ancestors = [] ∧ reader.record.isolationLevel = .snapshot ∧
      (∀ value, .write reader.id "accounts" [1] value ∉ afterDraw ++ [.proceed 1]) ∧
      (fromZero.run afterDraw).answer reader "accounts" [1] = .ok none ∧
      (fromZero.run (afterDraw ++ [.proceed 1])).answer reader "accounts" [1] = .ok (some [10]) :=
  ⟨_, _, rfl, rfl, rfl, fun value => by
    change Event.write 3 "accounts" [1] value ∉ _
    simp [afterDraw], rfl, rfl⟩

end Mvcc.Traffic
