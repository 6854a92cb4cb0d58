import Mvcc.Proofs.Txn.Outcome
import Mvcc.Snapshot.Read

/-!
# The walk of a read

A read judges the versions in order, by stamp or by a look-up of the writer, and returns the first
visible one, provided that the look-ups succeed.
-/

namespace Mvcc

open TxnM

/-! ## The first accepted element -/

section

variable {α β : Type} {judged : α → Bool → Prop} {members : List α} {found found' : Option α}

/-- The first member of a list that is judged well, if there is one. -/
inductive FirstJudged (judged : α → Bool → Prop) : List α → Option α → Prop where
  | nobody : FirstJudged judged [] none
  | found {a : α} {rest : List α} (h : judged a true) : FirstJudged judged (a :: rest) (some a)
  | passed {a : α} {rest : List α} {found : Option α} (h : judged a false)
    (hrest : FirstJudged judged rest found) : FirstJudged judged (a :: rest) found

/-- The judgement of every element is unique. -/
def Decided (judged : α → Bool → Prop) : Prop := ∀ a, ¬ (judged a true ∧ judged a false)

theorem FirstJudged.unique (hdecided : Decided judged) (h : FirstJudged judged members found)
    (h' : FirstJudged judged members found') : found = found' := by
  induction h with
  | nobody =>
    cases h'
    rfl
  | found hgood =>
    cases h' with
    | found _ => rfl
    | passed hbad _ => exact absurd ⟨hgood, hbad⟩ (hdecided _)
  | passed hbad _ ih =>
    cases h' with
    | found hgood => exact absurd ⟨hgood, hbad⟩ (hdecided _)
    | passed _ hrest' => exact ih hrest'

theorem FirstJudged.filter {keep : α → Bool} (hdecided : Decided judged)
    (hleft : ∀ a ∈ members, keep a = false → judged a false)
    (h : FirstJudged judged members found) : FirstJudged judged (members.filter keep) found := by
  induction h with
  | nobody => exact .nobody
  | @found a rest hgood =>
    cases hkeep : keep a with
    | true =>
      rw [List.filter_cons_of_pos hkeep]
      exact .found hgood
    | false => exact absurd ⟨hgood, hleft a (by simp) hkeep⟩ (hdecided a)
  | @passed a rest found hbad _ ih =>
    have hrest := ih fun b hb => hleft b (List.mem_cons_of_mem a hb)
    cases hkeep : keep a with
    | true =>
      rw [List.filter_cons_of_pos hkeep]
      exact .passed hbad hrest
    | false =>
      rw [List.filter_cons_of_neg (by simp [hkeep])]
      exact hrest

theorem FirstJudged.of_append {more : List α} (h : FirstJudged judged (members ++ more) found) :
    (∃ a, found = some a ∧ FirstJudged judged members (some a)) ∨
      FirstJudged judged members none ∧ FirstJudged judged more found := by
  induction members with
  | nil => exact .inr ⟨.nobody, h⟩
  | cons a rest ih =>
    cases h with
    | found hgood => exact .inl ⟨a, rfl, .found hgood⟩
    | passed hbad hrest =>
      rcases ih hrest with ⟨b, hfound, hfirst⟩ | ⟨hnone, hmore⟩
      · exact .inl ⟨b, hfound, .passed hbad hfirst⟩
      · exact .inr ⟨.passed hbad hnone, hmore⟩

/-- A search whose judgement is a test finds what `find?` finds. -/
theorem FirstJudged.eq_find? {p : α → Bool}
    (hjudged : ∀ a ∈ members, ∀ verdict, judged a verdict → verdict = p a)
    (h : FirstJudged judged members found) : found = members.find? p := by
  induction h with
  | nobody => rfl
  | @found a rest hgood =>
    have hkept : p a = true := (hjudged a (by simp) true hgood).symm
    rw [List.find?_cons_of_pos hkept]
  | @passed a rest found hbad _ ih =>
    have hpassed : p a = false := (hjudged a (by simp) false hbad).symm
    rw [List.find?_cons_of_neg (by simp [hpassed])]
    exact ih fun b hb => hjudged b (List.mem_cons_of_mem a hb)

theorem FirstJudged.map {judged' : β → Bool → Prop} {f : α → β}
    (hjudged : ∀ a ∈ members, ∀ verdict, judged a verdict → judged' (f a) verdict)
    (h : FirstJudged judged members found) :
    FirstJudged judged' (members.map f) (found.map f) := by
  induction h with
  | nobody => exact .nobody
  | @found a rest hgood => exact .found (hjudged a (by simp) true hgood)
  | @passed a rest found hbad _ ih =>
    exact .passed (hjudged a (by simp) false hbad)
      (ih fun b hb => hjudged b (List.mem_cons_of_mem a hb))

end

/-! ## Versions -/

/-- The judgement of a version by a reader, where `shown` are the views of look-ups. -/
def View.Judges (shown : TxnId → View → Prop) (reader : View) (version : Version)
    (verdict : Bool) : Prop :=
  match version.stamp with
  | some .rolledBack => verdict = false
  | some (.committed time) => verdict = reader.seesStamped version.writer time
  | none => ∃ writer, shown version.writer writer ∧ verdict = reader.canSee writer

theorem noting_answer (trace : ReadTrace) (writer : View) (id : TxnId) :
    (trace.noting writer id).answer = trace.answer := by
  unfold ReadTrace.noting
  split <;> rfl

variable {σ : Type} [Supplier σ] {fits : σ → Prop} {s : σ}

theorem firstVisible_keeps (hresolve : ∀ s, fits s → ∀ id, Leaves (View.resolve id) s fits)
    (hs : fits s) (reader : View) (versions : List Version) :
    fits (firstVisible reader versions s).2 := by
  induction versions generalizing s with
  | nil => exact hs
  | cons version older ih =>
    unfold firstVisible
    split
    · exact ih hs
    · split
      · exact hs
      · exact ih hs
    · have hends := hresolve s hs version.writer
      cases hfound : View.resolve version.writer s with
      | error e s₁ => exact hends.of_error hfound
      | ok view s₁ =>
        have hs₁ := hends.of_ok hfound
        cases hsees : reader.canSee view with
        | true =>
          simp only [hsees, if_true]
          exact hs₁
        | false =>
          simp only [hsees, Bool.false_eq_true, if_false]
          exact ih hs₁

/-- Where the writers of unstamped versions resolve, a walk ends at the first version that the
reader judges visible. -/
theorem firstVisible_judged {shown : TxnId → View → Prop} (hs : fits s) (reader : View)
    (versions : List Version)
    (hresolve : ∀ version ∈ versions, version.stamp = none → ∀ s, fits s →
      Ends (View.resolve version.writer) s
        (fun view s' => shown version.writer view ∧ fits s') fun _ _ => False) :
    ∃ found, FirstJudged (reader.Judges shown) versions found ∧
      (firstVisible reader versions s).1.answer = .ok (found.bind (·.value)) := by
  induction versions generalizing s with
  | nil => exact ⟨none, .nobody, rfl⟩
  | cons version older ih =>
    obtain ⟨hversion, holder⟩ := List.forall_mem_cons.1 hresolve
    have hjudges : ∀ verdict, reader.Judges shown version verdict ↔
        match version.stamp with
        | some .rolledBack => verdict = false
        | some (.committed time) => verdict = reader.seesStamped version.writer time
        | none => ∃ writer, shown version.writer writer ∧ verdict = reader.canSee writer :=
      fun _ => Iff.rfl
    cases hstamp : version.stamp with
    | some stamp =>
      cases stamp with
      | rolledBack =>
        obtain ⟨found, hfirst, hanswer⟩ := ih hs holder
        refine ⟨found, .passed (by simp [hjudges, hstamp]) hfirst, ?_⟩
        simpa only [firstVisible, hstamp] using hanswer
      | committed time =>
        cases hsees : reader.seesStamped version.writer time with
        | true =>
          refine ⟨some version, .found (by simp [hjudges, hstamp, hsees]), ?_⟩
          simp only [firstVisible, hstamp, hsees, if_true]
          rfl
        | false =>
          obtain ⟨found, hfirst, hanswer⟩ := ih hs holder
          refine ⟨found, .passed (by simp [hjudges, hstamp, hsees]) hfirst, ?_⟩
          simpa only [firstVisible, hstamp, hsees, Bool.false_eq_true, if_false] using hanswer
    | none =>
      obtain ⟨view, s₁, hfound, hshown, hs₁⟩ := (hversion hstamp s hs).exists_ok
      cases hsees : reader.canSee view with
      | true =>
        refine ⟨some version, .found ?_, ?_⟩
        · rw [hjudges, hstamp]
          exact ⟨view, hshown, hsees.symm⟩
        · simp only [firstVisible, hstamp, hfound, hsees, if_true, noting_answer]
          rfl
      | false =>
        obtain ⟨found, hfirst, hanswer⟩ := ih hs₁ holder
        refine ⟨found, .passed ?_ hfirst, ?_⟩
        · rw [hjudges, hstamp]
          exact ⟨view, hshown, hsees.symm⟩
        · simpa only [firstVisible, hstamp, hfound, hsees, Bool.false_eq_true, if_false,
            noting_answer] using hanswer

end Mvcc
