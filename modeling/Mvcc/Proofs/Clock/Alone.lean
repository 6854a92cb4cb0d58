import Mvcc.Clock.Connection
import Mvcc.Proofs.Clock.Link

/-!
# Uninterrupted steps

A call, a server and a reader whose steps are not interleaved with others compute `Client.call`,
`Connection.answer` and `Client.takeAnswers`.
-/

namespace Mvcc

/-! ## Calls -/

namespace Link

/-- Make a call without interleaving, up to its waiting or its failure. -/
def callAlone (l : Link) : Link :=
  (((l.call).check l.client.calls).write l.client.calls).withdraw l.client.calls

theorem callAlone_eq {l : Link} (hbroken : l.broken = false) :
    l.callAlone.client = l.client.call.2 ∧
      l.callAlone.upstream = l.upstream ++ l.client.call.1 := by
  unfold callAlone Link.call Client.call Client.register
  dsimp only
  cases hfree : Client.freeCaller? { l.client with calls := l.client.calls + 1 } Client.callerIds
      l.client.nextCaller with
  | none =>
    simp [check, write, withdraw, put, within]
  | some next =>
    cases hclosed : l.client.closed with
    | false =>
      simp [check, write, withdraw, put, within, along, Channel.send, hbroken]
    | true =>
      have hunused : ∀ waiting ∈ l.client.inFlight, waiting.caller ≠ next.toInt16 := by
        have hunused := Client.isInUse_of_freeCaller? hfree
        simpa [Client.isInUse] using hunused
      have hkept : l.client.inFlight.filter
          (fun waiting => !decide (waiting.caller = next.toInt16)) = l.client.inFlight := by
        refine List.filter_eq_self.2 fun waiting hwaiting => ?_
        simpa using hunused waiting hwaiting
      have hnone : l.client.inFlight.filter
          (fun waiting => decide (waiting.caller = next.toInt16)) = [] := by
        refine List.filter_eq_nil_iff.2 fun waiting hwaiting => ?_
        simpa using hunused waiting hwaiting
      simp [check, write, withdraw, put, within, Client.withdraw, Client.settle, hkept,
        hnone]

end Link

/-! ## The server -/

namespace Host

variable {h : Host} {s : Session} {call : Nat} {stage : CallStage}

theorem proceed_alone (hsession : h.session = some s) (hcall : h.calls call = some stage)
    (hturn : s.turn = if stage.hasTurn then some call else none) :
    ∃ s', (h.step (.proceed call)).session = some s' ∧
      s'.oracle = (s.oracle.proceed stage).2 ∧
      (h.step (.proceed call)).calls call = some (s.oracle.proceed stage).1 ∧
      s'.turn = if (s.oracle.proceed stage).1.hasTurn then some call else none := by
  by_cases hended : stage.isEnded = true
  · cases stage with
    | ended result =>
      have hsame : h.step (.proceed call) = h := by simp [step, hsession, hcall, Session.mayProceed]
      rw [hsame]
      exact ⟨s, hsession, rfl, hcall, hturn⟩
    | _ => cases hended
  · have hmay : s.mayProceed stage = true := by
      cases stage with
      | waiting time => rw [Session.mayProceed, hturn]; rfl
      | ended result => exact absurd rfl hended
      | _ => rfl
    have hstep : h.step (.proceed call) = (h.put call (s.oracle.proceed stage).1).within
        (s.follow call stage (s.oracle.proceed stage).1 (s.oracle.proceed stage).2) := by
      simp [step, hsession, hcall, hmay]
    rw [hstep]
    refine ⟨_, rfl, rfl, if_pos rfl, ?_⟩
    simp only [Session.follow, hturn]
    split
    · rfl
    · split <;> rfl

theorem carry_alone (hsession : h.session = some s) (hcall : h.calls call = some stage)
    (hturn : s.turn = if stage.hasTurn then some call else none) (stages : Nat) :
    ∃ s', (h.run (List.replicate stages (.proceed call))).session = some s' ∧
      s'.oracle = (Oracle.carry stages (stage, s.oracle)).2 ∧
      (h.run (List.replicate stages (.proceed call))).calls call =
        some (Oracle.carry stages (stage, s.oracle)).1 ∧
      s'.turn = if (Oracle.carry stages (stage, s.oracle)).1.hasTurn then some call else none := by
  induction stages generalizing h s stage with
  | zero => exact ⟨s, hsession, rfl, hcall, hturn⟩
  | succ stages ih =>
    obtain ⟨s', hsession', horacle, hcall', hturn'⟩ := proceed_alone hsession hcall hturn
    have hrest := ih hsession' hcall' hturn'
    rw [horacle] at hrest
    exact hrest

end Host

namespace Channel

/-- Serve a request without interleaving. -/
def respond (c : Channel) (h : Host) : Channel × Host :=
  let (channel, host) := c.serve h
  let host := host.run (List.replicate 7 (.proceed h.begun))
  (channel.reply host, host)

def respondTo : Nat → Channel × Host → Channel × Host
  | 0, served => served
  | requests + 1, (c, h) => respondTo requests (c.respond h)

variable {c : Channel} {h : Host} {s : Session}

theorem respond_alone (hserver : c.server = .reading) (hsession : h.session = some s)
    (hturn : s.turn = none) {first second : UInt8} {rest : Bytes}
    (hupstream : c.upstream = first :: second :: rest) :
    ∃ s', (c.respond h).2.session = some s' ∧ s'.turn = none ∧
      match s.oracle.next with
      | .ok time oracle => s'.oracle = oracle ∧ (c.respond h).1.server = .reading ∧
          (c.respond h).1.upstream = rest ∧ (c.respond h).1.downstream =
            c.downstream ++ (Response.mk (CallerId.decode [first, second]) time).encode
      | .error _ oracle => s'.oracle = oracle ∧ (c.respond h).1.server = .closed ∧
          (c.respond h).1.downstream = c.downstream := by
  have hserve : c.serve h = ({ c with
      upstream := rest
      server := .asking (CallerId.decode [first, second]) h.begun
      served := c.served ++ [h.begun] }, h.step .call) := by
    have htake : takeRequest c.upstream = (.ok (CallerId.decode [first, second]), rest) := by
      rw [hupstream]
      rfl
    simp only [serve, hserver, hsession, htake]
  have hstep : (h.step .call).session = some { s with oracle := s.oracle.count } ∧
      (h.step .call).calls h.begun = some (.counted s.oracle.count.counter) := by
    simp only [Host.step, hsession]
    exact ⟨rfl, if_pos rfl⟩
  obtain ⟨s', hsession', horacle, hcall, hturn'⟩ := Host.carry_alone hstep.1 hstep.2 hturn 7
  simp only [respond, hserve, reply]
  rw [hcall]
  rw [Oracle.carry_eq_next] at horacle hturn' ⊢
  cases hnext : s.oracle.next with
  | ok time oracle =>
    simp only [hnext] at horacle hturn' ⊢
    exact ⟨s', hsession', hturn', horacle, trivial, trivial, trivial⟩
  | error e oracle =>
    simp only [hnext] at horacle hturn' ⊢
    exact ⟨s', hsession', hturn', horacle, trivial, trivial⟩

/-- The result of a server that has read some bytes without interleaving. -/
structure Answered (bytes : Bytes) (oracle : Oracle) (c c' : Channel) (h' : Host) : Prop where
  session : ∃ s, h'.session = some s ∧ s.oracle = (Connection.answer bytes oracle).2
  downstream : c'.downstream = c.downstream ++ (Connection.answer bytes oracle).1.1
  connection : c'.server = .closed ∧ (Connection.answer bytes oracle).1.2 = ⟨[], true⟩ ∨
    c'.server = .reading ∧ (Connection.answer bytes oracle).1.2 = ⟨c'.upstream, false⟩

/-- Serving request by request without interleaving is `Connection.answer`. -/
theorem respondTo_alone : ∀ (bytes : Bytes) {c : Channel} {h : Host} {s : Session},
    c.upstream = bytes → c.server = .reading → h.session = some s → s.turn = none →
    ∃ requests, Answered bytes s.oracle c (respondTo requests (c, h)).1
      (respondTo requests (c, h)).2
  | first :: second :: rest, c, h, s, hupstream, hserver, hsession, hturn => by
    obtain ⟨s', hsession', hturn', hmatch⟩ := respond_alone hserver hsession hturn hupstream
    cases hnext : s.oracle.next with
    | ok time oracle =>
      simp only [hnext] at hmatch
      obtain ⟨horacle, hserver', hupstream', hdownstream⟩ := hmatch
      obtain ⟨requests, hrest⟩ := respondTo_alone rest hupstream' hserver' hsession' hturn'
      have hdraw : TimestampSource.draw s.oracle = .ok time oracle := hnext
      rw [horacle] at hrest
      refine ⟨requests + 1, ?_, ?_, ?_⟩
      · simp only [Connection.answer, hdraw]
        exact hrest.session
      · simp only [Connection.answer, hdraw]
        rw [← List.append_assoc, ← hdownstream]
        exact hrest.downstream
      · simp only [Connection.answer, hdraw]
        exact hrest.connection
    | error e oracle =>
      simp only [hnext] at hmatch
      obtain ⟨horacle, hserver', hdownstream⟩ := hmatch
      have hdraw : TimestampSource.draw s.oracle = .error e oracle := hnext
      refine ⟨1, ?_, ?_, ?_⟩
      · simp only [Connection.answer, hdraw]
        exact ⟨s', hsession', horacle⟩
      · simp only [Connection.answer, hdraw, List.append_nil]
        exact hdownstream
      · simp only [Connection.answer, hdraw]
        exact .inl ⟨hserver', trivial⟩
  | [], c, h, s, hupstream, hserver, hsession, _ => by
    refine ⟨0, ⟨s, hsession, rfl⟩, (List.append_nil _).symm, .inr ⟨hserver, ?_⟩⟩
    rw [respondTo, hupstream]
    rfl
  | [_], c, h, s, hupstream, hserver, hsession, _ => by
    refine ⟨0, ⟨s, hsession, rfl⟩, (List.append_nil _).symm, .inr ⟨hserver, ?_⟩⟩
    rw [respondTo, hupstream]
    rfl

end Channel

/-! ## The reader -/

namespace Link

def readAlone : Nat → Link → Link
  | 0, l => l
  | responses + 1, l => readAlone responses l.receive

theorem readAlone_of_receive {l : Link} (hreceive : l.receive = l) (responses : Nat) :
    readAlone responses l = l := by
  induction responses with
  | zero => rfl
  | succ responses ih => rw [readAlone, hreceive, ih]

theorem closed_deliver (client : Client) (response : Response) :
    (client.deliver response).closed = client.closed := by
  unfold Client.deliver
  split <;> rfl

theorem deliver_pending (client : Client) (response : Response) (bytes : Bytes) :
    Client.deliver { client with pending := bytes } response =
      { client.deliver response with pending := bytes } := by
  unfold Client.deliver
  dsimp only
  split <;> rfl

/-- Reading response by response without interleaving is `Client.takeAnswers`. -/
theorem readAlone_eq {l : Link} (hopen : l.client.closed = false) (responses : Nat) :
    Client.takeAnswers responses { l.client with pending := l.downstream } =
      { (readAlone responses l).release.client with
        pending := if (readAlone responses l).client.closed then []
          else (readAlone responses l).downstream } := by
  induction responses generalizing l with
  | zero => simp [readAlone, release, hopen, Client.takeAnswers]
  | succ responses ih =>
    have hnot : ¬ l.client.closed = true := by simp [hopen]
    rw [readAlone, Client.takeAnswers]
    cases htake : Response.take l.downstream with
    | mk result rest =>
      cases result with
      | ok response =>
        have hreceive : l.receive =
            (l.along { l.toChannel with downstream := rest, taken := l.taken + 1 }).within
              (l.client.deliver response) := by
          rw [receive, if_neg hnot, htake]
        rw [hreceive]
        dsimp only
        rw [deliver_pending]
        have hopen' : (l.client.deliver response).closed = false :=
          (closed_deliver ..).trans hopen
        exact @ih ((l.along { l.toChannel with downstream := rest, taken := l.taken + 1 }).within
          (l.client.deliver response)) hopen'
      | error fault =>
        cases fault with
        | truncatedResponse length =>
          have hreceive : l.receive = l := by rw [receive, if_neg hnot, htake]
          rw [hreceive, readAlone_of_receive hreceive]
          simp [release, hopen]
        | _ =>
          have hreceive : l.receive = l.lose := by rw [receive, if_neg hnot, htake]
          have hlost : l.lose.receive = l.lose := if_pos rfl
          rw [hreceive, readAlone_of_receive hlost]
          rfl

end Link

end Mvcc
