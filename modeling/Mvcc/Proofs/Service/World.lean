import Mvcc.Proofs.Txn.Roots

/-!
# Worlds

A world is the register of a ledger with the values and stamps in its tables. Every change of a row
is a write, a stamp or a purge with a justification in the register. It follows that writers of one
row do not overlap, unless one of them rolled back.
-/

namespace Mvcc

structure Entry where
  table : String
  row : Bytes
  writer : TxnId
  value : Option Bytes
  deriving DecidableEq

/-- What a writer wrote to a row last, going by a journal. -/
def lastWrite? (journal : List Entry) (table : String) (row : Bytes) (writer : TxnId) :
    Option (Option Bytes) :=
  (journal.reverse.find? fun entry =>
    table = entry.table ∧ row = entry.row ∧ writer = entry.writer).map (·.value)

theorem lastWrite?_append_singleton (journal : List Entry) (entry : Entry) (table : String)
    (row : Bytes) (writer : TxnId) :
    lastWrite? (journal ++ [entry]) table row writer =
      if table = entry.table ∧ row = entry.row ∧ writer = entry.writer then some entry.value
      else lastWrite? journal table row writer := by
  unfold lastWrite?
  rw [List.reverse_append, List.reverse_singleton, List.singleton_append, List.find?_cons]
  by_cases h : table = entry.table ∧ row = entry.row ∧ writer = entry.writer
  · simp [h]
  · simp [h]

theorem isSome_lastWrite?_iff {journal : List Entry} {table : String} {row : Bytes}
    {writer : TxnId} : (lastWrite? journal table row writer).isSome ↔
      ∃ entry ∈ journal, table = entry.table ∧ row = entry.row ∧ writer = entry.writer := by
  simp only [lastWrite?, Option.isSome_map, List.find?_isSome, List.mem_reverse, decide_eq_true_eq]

/-- The register of an environment with the values and stamps in its tables. -/
structure World where
  register : Register Oracle
  values : String → Bytes → TxnId → Option (Option Bytes)
  stamps : String → Bytes → TxnId → Option Stamp

namespace World

def write (w : World) (entry : Entry) : World :=
  { w with values := fun table row writer =>
      if table = entry.table ∧ row = entry.row ∧ writer = entry.writer then some entry.value
      else w.values table row writer }

def stamp (w : World) (table : String) (row : Bytes) (writer : TxnId) (stamp : Stamp) : World :=
  { w with stamps := fun table' row' writer' =>
      if table' = table ∧ row' = row ∧ writer' = writer then some stamp
      else w.stamps table' row' writer' }

def purge (w : World) (table : String) (row : Bytes) (writer : TxnId) : World :=
  { w with
    values := fun table' row' writer' =>
      if table' = table ∧ row' = row ∧ writer' = writer then none
      else w.values table' row' writer'
    stamps := fun table' row' writer' =>
      if table' = table ∧ row' = row ∧ writer' = writer then none
      else w.stamps table' row' writer' }

/-- A transaction ended without conflict for one that began at `time`: it rolled back, or committed
before. -/
def EndedBefore (w : World) (id : TxnId) (time : Timestamp) : Prop :=
  w.register.outcome? id = some .rolledBack ∨
    ∃ commit, w.register.outcome? id = some (.committed commit) ∧ commit ≤ time

/-- Every other writer of a row ended before `writer` began. -/
def Clear (w : World) (table : String) (row : Bytes) (writer : TxnId) : Prop :=
  ∀ other, other ≠ writer → (w.values table row other).isSome → w.EndedBefore other writer

inductive Step (w : World) : List Entry → World → Prop where
  | ledger {r : Register Oracle} (h : w.register.Proceeds (· = none) r) :
    Step w [] { w with register := r }
  | write {entry : Entry} (hrecord : (w.register.records entry.writer).isSome)
    (hactive : w.register.outcome? entry.writer = none)
    (hclear : w.Clear entry.table entry.row entry.writer) : Step w [entry] (w.write entry)
  | stamp {table : String} {row : Bytes} {writer : TxnId} {stamp : Stamp}
    (h : w.register.outcome? writer = some stamp) : Step w [] (w.stamp table row writer stamp)
  | purge {table : String} {row : Bytes} {writer : TxnId}
    (h : w.register.outcome? writer = some .rolledBack) : Step w [] (w.purge table row writer)

inductive Steps : World → List Entry → World → Prop where
  | refl (w : World) : Steps w [] w
  | tail {w w' w'' : World} {entries more : List Entry} (h : Steps w entries w')
    (hstep : w'.Step more w'') : Steps w (entries ++ more) w''

theorem Step.single {w w' : World} {entries : List Entry} (h : w.Step entries w') :
    w.Steps entries w' := by
  simpa using (Steps.refl w).tail h

theorem Steps.trans {w w' w'' : World} {entries more : List Entry} (h : w.Steps entries w')
    (h' : w'.Steps more w'') : w.Steps (entries ++ more) w'' := by
  induction h' with
  | refl => simpa using h
  | tail _ hstep ih => rw [← List.append_assoc]; exact ih.tail hstep

theorem Clear.of_remembers {w : World} {r : Register Oracle} (h : w.register.Remembers r)
    {table : String} {row : Bytes} {writer : TxnId} (hclear : w.Clear table row writer) :
    Clear { w with register := r } table row writer := by
  intro other hne hvalue
  have hends := hclear other hne hvalue
  unfold EndedBefore at hends ⊢
  rw [h.outcome?]
  exact hends

theorem Clear.write {w : World} {table : String} {row : Bytes} {writer : TxnId}
    (hclear : w.Clear table row writer) (entry : Entry) (hwriter : entry.writer = writer) :
    (w.write entry).Clear table row writer := by
  subst hwriter
  intro other hne hvalue
  have hkept : (w.write entry).values table row other = w.values table row other :=
    if_neg fun h => hne h.2.2
  exact hclear other hne (hkept ▸ hvalue)

/-! ## The invariant -/

structure Sound (w : World) : Prop where
  plain : w.register.Plain
  written {table : String} {row : Bytes} {id : TxnId} (h : (w.values table row id).isSome) :
    (w.register.records id).isSome
  stamped {table : String} {row : Bytes} {id : TxnId} {stamp : Stamp}
    (h : w.stamps table row id = some stamp) : w.register.outcome? id = some stamp
  apart {table : String} {row : Bytes} {a b : TxnId} (ha : (w.values table row a).isSome)
    (hb : (w.values table row b).isSome) (hne : a ≠ b) :
    w.EndedBefore a b ∨ w.EndedBefore b a

/-- An ended transaction stays ended. -/
theorem EndedBefore.of_proceeds {w : World} {r : Register Oracle}
    (hproceeds : w.register.Proceeds (· = none) r) {id : TxnId} {time : Timestamp}
    (h : w.EndedBefore id time) : EndedBefore { w with register := r } id time := by
  rcases h with hrolledBack | ⟨commit, hcommit, hle⟩
  · exact .inl (hproceeds.settles.outcome? hrolledBack)
  · exact .inr ⟨commit, hproceeds.settles.outcome? hcommit, hle⟩

theorem Sound.of_proceeds {w : World} {r : Register Oracle} (h : w.Sound)
    (hproceeds : w.register.Proceeds (· = none) r) : Sound { w with register := r } where
  plain := h.plain.proceeds hproceeds
  written hvalue := by
    obtain ⟨txn, htxn⟩ := Option.isSome_iff_exists.1 (h.written hvalue)
    obtain ⟨kept, hkept, -⟩ := hproceeds.advances.kept htxn
    exact Option.isSome_iff_exists.2 ⟨kept, hkept⟩
  stamped hstamp := hproceeds.settles.outcome? (h.stamped hstamp)
  apart ha hb hne := (h.apart ha hb hne).imp (.of_proceeds hproceeds) (.of_proceeds hproceeds)

theorem Sound.write {w : World} (h : w.Sound) {entry : Entry}
    (hrecord : (w.register.records entry.writer).isSome)
    (hclear : w.Clear entry.table entry.row entry.writer) : (w.write entry).Sound := by
  have hvalue : ∀ {table : String} {row : Bytes} {id : TxnId},
      ((w.write entry).values table row id).isSome →
        (table = entry.table ∧ row = entry.row ∧ id = entry.writer) ∨
          (w.values table row id).isSome := by
    intro table row id hsome
    simp only [World.write] at hsome
    split at hsome
    · rename_i hkey
      exact .inl hkey
    · exact .inr hsome
  refine ⟨h.plain, fun hsome => ?_, h.stamped, fun {table row a b} ha hb hne => ?_⟩
  · rcases hvalue hsome with ⟨rfl, rfl, rfl⟩ | hold
    · exact hrecord
    · exact h.written hold
  · rcases hvalue ha with ⟨rfl, rfl, rfl⟩ | ha
    · rcases hvalue hb with ⟨-, -, rfl⟩ | hb
      · exact absurd rfl hne
      · exact .inr (hclear b hne.symm hb)
    · rcases hvalue hb with ⟨rfl, rfl, rfl⟩ | hb
      · exact .inl (hclear a hne ha)
      · exact h.apart ha hb hne

theorem Sound.stamp {w : World} (h : w.Sound) {table : String} {row : Bytes} {writer : TxnId}
    {stamp : Stamp} (houtcome : w.register.outcome? writer = some stamp) :
    (w.stamp table row writer stamp).Sound := by
  refine ⟨h.plain, h.written, fun {table' row' id stamp'} hstamp => ?_, h.apart⟩
  simp only [World.stamp] at hstamp
  split at hstamp
  · rename_i hkey
    cases hstamp
    rw [hkey.2.2]
    exact houtcome
  · exact h.stamped hstamp

theorem Sound.purge {w : World} (h : w.Sound) (table : String) (row : Bytes) (writer : TxnId) :
    (w.purge table row writer).Sound := by
  have hvalue : ∀ {table' : String} {row' : Bytes} {id : TxnId},
      ((w.purge table row writer).values table' row' id).isSome →
        (w.values table' row' id).isSome := by
    intro table' row' id hsome
    simp only [World.purge] at hsome
    split at hsome
    · cases hsome
    · exact hsome
  refine ⟨h.plain, fun hsome => h.written (hvalue hsome), fun {table' row' id stamp} hstamp => ?_,
    fun ha hb hne => h.apart (hvalue ha) (hvalue hb) hne⟩
  simp only [World.purge] at hstamp
  split at hstamp
  · cases hstamp
  · exact h.stamped hstamp

theorem Step.sound {w w' : World} {entries : List Entry} (h : w.Sound)
    (hstep : w.Step entries w') : w'.Sound := by
  cases hstep with
  | ledger hproceeds => exact h.of_proceeds hproceeds
  | write hrecord hactive hclear => exact h.write hrecord hclear
  | stamp houtcome => exact h.stamp houtcome
  | purge houtcome => exact h.purge _ _ _

theorem Steps.sound {w w' : World} {entries : List Entry} (h : w.Sound)
    (hsteps : w.Steps entries w') : w'.Sound := by
  induction hsteps with
  | refl => exact h
  | tail _ hstep ih => exact hstep.sound ih

theorem Steps.proceeds {w w' : World} {entries : List Entry} (h : w.Sound)
    (hsteps : w.Steps entries w') : w.register.Proceeds (· = none) w'.register := by
  induction hsteps with
  | refl => exact .refl _ h.plain.sound
  | tail _ hstep ih =>
    cases hstep with
    | ledger hproceeds => exact ih.trans hproceeds
    | _ => exact ih

theorem Steps.outcome? {w w' : World} {entries : List Entry} (hsteps : w.Steps entries w')
    {id : TxnId} {stamp : Stamp} (h : w.register.outcome? id = some stamp) :
    w'.register.outcome? id = some stamp := by
  induction hsteps with
  | refl => exact h
  | tail _ hstep ih =>
    cases hstep with
    | ledger hproceeds => exact hproceeds.settles.outcome? ih
    | _ => exact ih

/-! ## The journal -/

/-- The values of a world are the last writes of a journal, without those of rolled-back
transactions. -/
def Reflects (w : World) (journal : List Entry) : Prop :=
  ∀ table row id, w.values table row id = lastWrite? journal table row id ∨
    (w.values table row id = none ∧ w.register.outcome? id = some .rolledBack)

theorem Step.reflects {w w' : World} {journal entries : List Entry}
    (hstep : w.Step entries w') (h : w.Reflects journal) : w'.Reflects (journal ++ entries) := by
  intro table row id
  cases hstep with
  | ledger hproceeds =>
    rw [List.append_nil]
    exact (h table row id).imp_right fun ⟨hnone, hrolledBack⟩ =>
      ⟨hnone, hproceeds.settles.outcome? hrolledBack⟩
  | @write entry hrecord hactive hclear =>
    rw [lastWrite?_append_singleton]
    simp only [World.write]
    split
    · exact .inl rfl
    · exact h table row id
  | stamp houtcome =>
    rw [List.append_nil]
    exact h table row id
  | @purge table' row' writer houtcome =>
    rw [List.append_nil]
    simp only [World.purge]
    split
    · rename_i hkey
      exact .inr ⟨rfl, hkey.2.2 ▸ houtcome⟩
    · exact h table row id

theorem Steps.reflects {w w' : World} {journal entries : List Entry}
    (hsteps : w.Steps entries w') (h : w.Reflects journal) : w'.Reflects (journal ++ entries) := by
  induction hsteps with
  | refl => simpa using h
  | tail _ hstep ih =>
    rw [← List.append_assoc]
    exact hstep.reflects ih

theorem Reflects.values_eq {w : World} {journal : List Entry} (h : w.Reflects journal)
    {table : String} {row : Bytes} {id : TxnId}
    (hstands : w.register.outcome? id ≠ some .rolledBack) :
    w.values table row id = lastWrite? journal table row id :=
  (h table row id).resolve_right fun hpurged => hstands hpurged.2

theorem Reflects.exists_standing {w : World} {journal : List Entry} (h : w.Reflects journal)
    (hsound : w.Sound) {entry : Entry} (hentry : entry ∈ journal) :
    ∃ txn, w.register.standing? entry.writer = some txn := by
  rcases h entry.table entry.row entry.writer with hvalue | ⟨-, houtcome⟩
  · have hsome := isSome_lastWrite?_iff.2 ⟨entry, hentry, rfl, rfl, rfl⟩
    rw [← hvalue] at hsome
    obtain ⟨txn, htxn⟩ := Option.isSome_iff_exists.1 (hsound.written hsome)
    exact ⟨_, Register.standing?_of_record htxn⟩
  · obtain ⟨txn, htxn, -⟩ := Option.bind_eq_some_iff.1 houtcome
    exact ⟨txn, htxn⟩

end World

end Mvcc
