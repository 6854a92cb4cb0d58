import Mvcc.Proofs.Clock.Link

/-!
# Exhaustion

An oracle keeps counting past the greatest timestamp. An oracle call counted there fails, and the
server closes its connection, so each such count takes a connection. With fewer than `2 ^ 63`
connections the counter does not wrap around.
-/

namespace Mvcc

/-- The call was counted above the greatest timestamp, or it has failed already. -/
def CallStage.IsLost : CallStage → Prop
  | .counted time => Timestamp.greatest < time
  | .ended (.error _) => True
  | _ => False

theorem Oracle.counter_proceed (o : Oracle) (stage : CallStage) :
    (o.proceed stage).2.counter = o.counter := by
  cases stage with
  | counted time =>
    simp only [proceed]
    split
    · rfl
    · split <;> rfl
  | admitted time =>
    simp only [proceed]
    split <;> rfl
  | storing time =>
    simp only [proceed]
    split <;> rfl
  | leaving result => cases result <;> rfl
  | _ => rfl

namespace Host

def counted (h : Host) : Nat :=
  match h.session with
  | some s => s.oracle.counter.toNat
  | none => 0

/-- A call does not return a timestamp any more. -/
def Loses (h : Host) (call : Nat) : Prop := ∃ stage, h.calls call = some stage ∧ stage.IsLost

variable {h : Host}

theorem counted_start (mark : Mark) (blockSize : UInt64) :
    ((closed mark).step (.start blockSize)).counted ≤ Timestamp.greatest.toNat := by
  obtain ⟨hsound, -⟩ := step_start (sound_closed mark) blockSize
  have hbegun : ((closed mark).step (.start blockSize)).begun = 0 := by
    simp only [step]
    split <;> rfl
  unfold counted
  split
  · rename_i s hsession
    obtain ⟨durable, hs⟩ := hsound.serving hsession
    have hlt := hs.counter_lt
    have hgreatest : Timestamp.greatest.toNat = 2 ^ 63 - 1 := rfl
    rw [hbegun] at hlt
    omega
  · exact Nat.zero_le _

theorem counted_proceed (h : Host) (call : Nat) : (h.step (.proceed call)).counted = h.counted := by
  simp only [step]
  split
  · rename_i s stage hsession hcall
    split
    · simp only [counted, within, Session.follow, Oracle.counter_proceed, hsession]
    · rfl
  · rfl

theorem counted_refuse (h : Host) (call : Nat) (e : TimestampError) :
    (h.step (.refuse call e)).counted = h.counted := by
  simp only [step]
  split
  · rename_i s time hsession hcall
    simp only [counted, within, Session.follow, hsession]
  · rfl

theorem counted_call (hsupplied : h.Supplied) : (h.step .call).counted ≤ h.counted + 1 := by
  simp only [step]
  split
  · rename_i s hsession
    simp only [counted, within, hsession]
    exact Nat.le_of_eq (Oracle.toNat_counter_succ (hsupplied s hsession))
  · exact Nat.le_succ _

/-- A call counted above the greatest timestamp is lost. -/
theorem loses_begun (hsession : h.session.isSome)
    (hcounted : Timestamp.greatest.toNat < (h.step .call).counted) :
    (h.step .call).Loses h.begun := by
  obtain ⟨s, hsome⟩ := Option.isSome_iff_exists.1 hsession
  simp only [step, hsome, counted, within] at hcounted ⊢
  exact ⟨.counted s.oracle.count.counter, if_pos rfl, UInt64.lt_iff_toNat_lt.2 hcounted⟩

theorem Loses.call {call : Nat} (hloses : h.Loses call) (hsound : h.Sound) :
    (h.step .call).Loses call := by
  obtain ⟨stage, hcall, hlost⟩ := hloses
  have hne := Nat.ne_of_lt (hsound.numbered hcall)
  simp only [step]
  split
  · exact ⟨stage, (if_neg hne).trans hcall, hlost⟩
  · exact ⟨stage, hcall, hlost⟩

theorem Loses.proceed {call : Nat} (hloses : h.Loses call) (other : Nat) :
    (h.step (.proceed other)).Loses call := by
  obtain ⟨stage, hcall, hlost⟩ := hloses
  simp only [step]
  split
  · rename_i s stage' hsession hother
    split
    · rename_i hmay
      by_cases hsame : call = other
      · subst hsame
        cases hcall.symm.trans hother
        refine ⟨_, if_pos rfl, ?_⟩
        cases stage with
        | counted time =>
          simp only [Oracle.proceed, if_pos (show Timestamp.greatest < time from hlost)]
          trivial
        | ended result => cases hmay
        | _ => exact hlost.elim
      · exact ⟨stage, (if_neg hsame).trans hcall, hlost⟩
    · exact ⟨stage, hcall, hlost⟩
  · exact ⟨stage, hcall, hlost⟩

theorem Loses.refuse {call : Nat} (hloses : h.Loses call) (other : Nat) (e : TimestampError) :
    (h.step (.refuse other e)).Loses call := by
  obtain ⟨stage, hcall, hlost⟩ := hloses
  simp only [step]
  split
  · rename_i s time hsession hother
    have hne : call ≠ other := by
      intro hsame
      subst hsame
      cases hcall.symm.trans hother
      exact hlost
    exact ⟨stage, (if_neg hne).trans hcall, hlost⟩
  · exact ⟨stage, hcall, hlost⟩

end Host

/-! ## Used connections -/

namespace Channel

/-- The server does not ask the oracle any more. -/
def Spent (c : Channel) (h : Host) : Prop :=
  match c.server with
  | .reading => False
  | .asking _ call => h.Loses call
  | .closed => True

variable {c : Channel} {h h' : Host}

theorem Spent.mono (hspent : c.Spent h) (hloses : ∀ call, h.Loses call → h'.Loses call) :
    c.Spent h' := by
  unfold Spent at hspent ⊢
  cases hserver : c.server with
  | reading =>
    rw [hserver] at hspent
    exact hspent
  | asking caller call =>
    rw [hserver] at hspent
    exact hloses call hspent
  | closed => trivial

theorem Spent.of_server {c' : Channel} (hspent : c.Spent h) (hserver : c'.server = c.server) :
    c'.Spent h := by
  unfold Spent at hspent ⊢
  rw [hserver]
  exact hspent

theorem not_spent_of_reading (hserver : c.server = .reading) : ¬ c.Spent h := by
  unfold Spent
  rw [hserver]
  exact id

theorem Spent.serve (hspent : c.Spent h) : c.serve h = (c, h) := by
  rcases c.serve_cases h with hsame | ⟨caller, rest, hserver, -, -, -⟩
  · exact hsame
  · exact absurd hspent (not_spent_of_reading hserver)

theorem Spent.reply (hspent : c.Spent h) : (c.reply h).Spent h := by
  unfold Channel.reply
  split
  · rename_i caller call hserver
    split
    · rename_i time hended
      unfold Spent at hspent
      rw [hserver] at hspent
      obtain ⟨stage, hcall, hlost⟩ := hspent
      cases hcall.symm.trans hended
      exact hlost.elim
    · trivial
    · exact hspent
  · exact hspent

theorem Spent.cutReply (hspent : c.Spent h) (bytes : Nat) : (c.cutReply h bytes).Spent h := by
  unfold Channel.cutReply
  split
  · split
    · trivial
    · exact hspent
  · exact hspent

theorem Spent.shut (hspent : c.Spent h) : c.shut.Spent h := by
  unfold Channel.shut
  split
  · trivial
  · exact hspent

theorem Spent.step {l : Link} (hspent : l.toChannel.Spent h) (event : Link.Event) :
    (l.step h event).1.toChannel.Spent (l.step h event).2 := by
  cases event with
  | call =>
    refine hspent.of_server ?_
    simp only [Link.step, Link.call]
    split <;> rfl
  | check ask =>
    refine hspent.of_server ?_
    simp only [Link.step, Link.check]
    split <;> rfl
  | write ask =>
    refine hspent.of_server ?_
    simp only [Link.step, Link.write]
    split
    · split <;> rfl
    · rfl
  | breakOff ask bytes fault =>
    refine hspent.of_server ?_
    simp only [Link.step, Link.breakOff]
    split <;> rfl
  | withdraw ask =>
    refine hspent.of_server ?_
    simp only [Link.step, Link.withdraw]
    split <;> rfl
  | collect ask =>
    refine hspent.of_server ?_
    simp only [Link.step, Link.collect]
    split <;> rfl
  | receive =>
    refine hspent.of_server ?_
    simp only [Link.step, Link.receive]
    split
    · rfl
    · split <;> rfl
  | lose => exact hspent.of_server rfl
  | release =>
    refine hspent.of_server ?_
    simp only [Link.step, Link.release]
    split <;> rfl
  | serve =>
    show Spent (l.toChannel.serve h).1 (l.toChannel.serve h).2
    rw [hspent.serve]
    exact hspent
  | reply => exact hspent.reply
  | cutReply bytes => exact hspent.cutReply bytes
  | shut => exact hspent.shut

/-- A count above the greatest timestamp uses up the connection it was made for. -/
theorem spent_step (l : Link) (h : Host) (event : Link.Event) (hcounts : (l.step h event).2 ≠ h)
    (hcounted : Timestamp.greatest.toNat < (l.step h event).2.counted) :
    ¬ l.toChannel.Spent h ∧ (l.step h event).1.toChannel.Spent (l.step h event).2 := by
  cases event with
  | serve =>
    rcases l.toChannel.serve_cases h with hsame | ⟨caller, rest, hserver, hsession, -, hserve⟩
    · simp only [Link.step, hsame] at hcounts
      exact absurd rfl hcounts
    · simp only [Link.step, hserve] at hcounted ⊢
      exact ⟨not_spent_of_reading hserver, Host.loses_begun hsession hcounted⟩
  | _ => exact absurd rfl hcounts

end Channel

end Mvcc
