import Mvcc.Clock.Peer
import Mvcc.Proofs.Clock.Waiting

/-!
# Cases of an encounter

An encounter advances a call, delivers a response or closes the client. By these cases every call
waits under its caller id until a result is delivered, and a returned timestamp was delivered.
-/

namespace Mvcc

/-- A call that has not ended, with this caller id where its stage names one. -/
def AskStage.WaitsUnder (caller : CallerId) : AskStage → Prop
  | .registered own | .cleared own | .failing own _ => own = caller
  | .awaiting => True
  | .ended _ => False

namespace Link

variable {l l' : Link} {encounter : Encounter} {ask : Nat} {stage stage' : AskStage}
  {caller : CallerId}

theorem mem_of_lookup {results : List (Nat × Except TimestampError Timestamp)}
    {result : Except TimestampError Timestamp} (h : results.lookup ask = some result) :
    (ask, result) ∈ results := by
  obtain ⟨front, back, rfl, -⟩ := List.lookup_eq_some_iff.1 h
  exact List.mem_append_right _ List.mem_cons_self

/-! ## Cases of an encounter -/

/-- A step of a call to a stage, with its effect on client and channel. -/
inductive Goes (l : Link) : Encounter → Nat → AskStage → Link → Prop where
  | refused (hregister : l.client.register.1 = none) :
      l.Goes .call l.client.calls (.ended (.error (.protocol .noFreeCaller)))
      (l.within ({ l.client with calls := l.client.calls + 1 }.settle l.client.calls
        (.error (.protocol .noFreeCaller))))
  | registered {caller : CallerId} {next : UInt16}
      (hregister : l.client.register.1 = some caller)
      (hunused : ∀ waiting ∈ l.client.inFlight, waiting.caller ≠ caller) :
      l.Goes .call l.client.calls (.registered caller) (l.within { l.client with
        calls := l.client.calls + 1
        nextCaller := next
        inFlight := l.client.inFlight ++ [⟨caller, l.client.calls⟩] })
  | rejected {ask : Nat} {caller : CallerId} (hask : l.asks ask = some (.registered caller))
      (hclosed : l.client.closed = true) : l.Goes (.check ask) ask (.failing caller .closed) l
  | cleared {ask : Nat} {caller : CallerId} (hask : l.asks ask = some (.registered caller))
      (hopen : l.client.closed = false) : l.Goes (.check ask) ask (.cleared caller) l
  | written {ask : Nat} {caller : CallerId} (hask : l.asks ask = some (.cleared caller))
      (hwhole : l.broken = false) :
      l.Goes (.write ask) ask .awaiting (l.along (l.toChannel.send ⟨caller, ask⟩))
  | brokenOff {ask : Nat} {caller : CallerId} (hask : l.asks ask = some (.cleared caller))
      (bytes : Fin requestLength) (fault : IoFault) :
      l.Goes (.breakOff ask bytes fault) ask (.failing caller (.io fault))
        (l.along (l.toChannel.breakOff caller bytes))
  | withdrawn {ask : Nat} {caller : CallerId} {e : TimestampError}
      (hask : l.asks ask = some (.failing caller e)) :
      l.Goes (.withdraw ask) ask (.ended (.error e)) (l.within (l.client.withdraw caller))
  | collected {ask : Nat} {result : Except TimestampError Timestamp}
      (hask : l.asks ask = some .awaiting) (hresult : l.client.results.lookup ask = some result) :
      l.Goes (.collect ask) ask (.ended result) l

inductive Change (l : Link) : Encounter → Link → Prop where
  | idle (encounter : Encounter) : l.Change encounter l
  | goes {encounter : Encounter} {ask : Nat} {stage : AskStage} {l' : Link}
      (hgoes : l.Goes encounter ask stage l') : l.Change encounter (l'.put ask stage)
  | delivered {response : Response} {rest : Bytes} (hopen : l.client.closed = false)
      (htake : Response.take l.downstream = (.ok response, rest)) :
      l.Change .receive
        ((l.along { l.toChannel with downstream := rest, taken := l.taken + 1 }).within
          (l.client.deliver response))
  | lost {encounter : Encounter} (hends : l.Ends encounter) : l.Change encounter l.lose
  | released (hclosed : l.client.closed = true) : l.Change .release (l.within l.client.close)
  | arrived (bytes : Bytes) : l.Change (.arrive bytes) (l.arrive bytes)

theorem change_meet (l : Link) (encounter : Encounter) :
    l.Change encounter (l.meet encounter) := by
  cases encounter with
  | call =>
    rcases l.client.register_cases with hregister | ⟨next, hunused, hregister⟩
    · rw [meet, call, hregister]
      exact .goes (.refused (congrArg Prod.fst hregister))
    · rw [meet, call, hregister]
      exact .goes (.registered (congrArg Prod.fst hregister) hunused)
  | check ask =>
    simp only [meet, check]
    split
    · rename_i caller hask
      split
      · rename_i hclosed
        exact .goes (.rejected hask hclosed)
      · rename_i hopen
        exact .goes (.cleared hask (by simpa using hopen))
    · exact .idle _
  | write ask =>
    simp only [meet, write]
    split
    · rename_i caller hask
      split
      · exact .idle _
      · rename_i hwhole
        exact .goes (.written hask (by simpa using hwhole))
    · exact .idle _
  | breakOff ask bytes fault =>
    simp only [meet, breakOff]
    split
    · rename_i caller hask
      exact .goes (.brokenOff hask bytes fault)
    · exact .idle _
  | withdraw ask =>
    simp only [meet, withdraw]
    split
    · rename_i caller e hask
      exact .goes (.withdrawn hask)
    · exact .idle _
  | collect ask =>
    simp only [meet, collect]
    split
    · rename_i result hask hresult
      exact .goes (.collected hask hresult)
    · exact .idle _
  | receive =>
    simp only [meet, receive]
    split
    · exact .idle _
    · rename_i hopen
      rcases Response.take_cases l.downstream with ⟨length, htake⟩ | ⟨time, rest, htake⟩ |
        ⟨response, rest, -, htake⟩
      · rw [htake]
        exact .idle _
      · rw [htake]
        exact .lost ⟨time, rest, htake⟩
      · rw [htake]
        exact .delivered (by simpa using hopen) htake
  | lose => exact .lost trivial
  | release =>
    simp only [meet, release]
    split
    · rename_i hclosed
      exact .released hclosed
    · exact .idle _
  | arrive bytes => exact .arrived bytes

theorem Goes.asks_eq (h : l.Goes encounter ask stage l') : l'.asks = l.asks := by
  cases h <;> rfl

theorem Change.asks (h : l.Change encounter l') (hask : l'.asks ask = some stage) :
    l.asks ask = some stage ∨ ∃ l'', l.Goes encounter ask stage l'' := by
  cases h with
  | goes hgoes =>
    rcases asks_put hask with ⟨rfl, rfl⟩ | ⟨-, hother⟩
    · exact .inr ⟨_, hgoes⟩
    · exact .inl (hgoes.asks_eq ▸ hother)
  | idle | delivered | lost | released | arrived => exact .inl hask

theorem Change.closed (h : l.Change encounter l') (hclosed : l.client.closed = true) :
    l'.client.closed = true := by
  cases h with
  | goes hgoes =>
    cases hgoes with
    | _ => exact hclosed
  | delivered hopen => cases hopen.symm.trans hclosed
  | idle | arrived => exact hclosed
  | lost | released => rfl

/-! ## Everybody is attended to -/

/-- The invariant of the calls of a link with an arbitrary other end, and of the calls in flight. -/
structure Attended (l : Link) : Prop where
  accounts : l.client.Accounts
  begun (ask : Nat) : (l.asks ask).isSome ↔ ask < l.client.calls
  waiting {caller : CallerId} {ask : Nat} (hmem : ⟨caller, ask⟩ ∈ l.client.inFlight) :
    ∃ stage, l.asks ask = some stage ∧ stage.WaitsUnder caller
  sent_lt : ∀ request ∈ l.sent, request.call < l.client.calls
  unsent {ask : Nat} {stage : AskStage} {caller : CallerId} (hask : l.asks ask = some stage)
    (hcaller : stage.unsent? = some caller) : ∀ request ∈ l.sent, request.call ≠ ask
  failing {ask : Nat} {caller : CallerId} {e : TimestampError}
    (hask : l.asks ask = some (.failing caller e)) : e = .closed ∨ ∃ fault, e = .io fault
  returned {ask : Nat} {time : Timestamp} (hask : l.asks ask = some (.ended (.ok time))) :
    (ask, .ok time) ∈ l.client.results

theorem attended_opened : opened.Attended where
  accounts := Client.accounts_connected
  begun ask := by simp [opened, Client.connected]
  waiting hmem := by cases hmem
  sent_lt request hrequest := by cases hrequest
  unsent hask := by cases hask
  failing hask := by cases hask
  returned hask := by cases hask

theorem Attended.within (hl : l.Attended) {client : Client} (haccounts : client.Accounts)
    (htells : l.client.Tells client) : (l.within client).Attended where
  accounts := haccounts
  begun ask := (hl.begun ask).trans (htells.calls ▸ Iff.rfl)
  waiting hmem := hl.waiting (htells.inFlight _ hmem)
  sent_lt request hrequest := htells.calls ▸ hl.sent_lt request hrequest
  unsent := hl.unsent
  failing := hl.failing
  returned hask := htells.results _ (hl.returned hask)

theorem Attended.along (hl : l.Attended) {channel : Channel}
    (hsent : ∀ request ∈ channel.sent,
      request ∈ l.sent ∨ l.asks request.call = some .awaiting) :
    (l.along channel).Attended where
  accounts := hl.accounts
  begun := hl.begun
  waiting := hl.waiting
  sent_lt request hrequest := by
    rcases hsent request hrequest with hold | hnew
    · exact hl.sent_lt request hold
    · exact (hl.begun _).1 (by rw [hnew]; rfl)
  unsent {ask stage caller} hask hcaller request hrequest hsame := by
    rcases hsent request hrequest with hold | hnew
    · exact hl.unsent hask hcaller request hold hsame
    · rw [hsame] at hnew
      cases hask.symm.trans hnew
      cases hcaller
  failing := hl.failing
  returned := hl.returned

theorem Attended.put (hl : l.Attended) (hask : l.asks ask = some stage)
    (hwaits : ∀ caller, ⟨caller, ask⟩ ∈ l.client.inFlight → stage.WaitsUnder caller →
      stage'.WaitsUnder caller)
    (hunsent : ∀ caller, stage'.unsent? = some caller → stage.unsent? = some caller)
    (hfailing : ∀ caller e, stage' = .failing caller e → e = .closed ∨ ∃ fault, e = .io fault)
    (hreturned : ∀ time, stage' = .ended (.ok time) → (ask, .ok time) ∈ l.client.results) :
    (l.put ask stage').Attended where
  accounts := hl.accounts
  begun other := by
    by_cases hsame : other = ask
    · have hbegun : l.asks other = some stage := hsame ▸ hask
      simp [Link.put, hsame, ← hl.begun, hask]
    · simpa [Link.put, hsame] using hl.begun other
  waiting {caller other} hmem := by
    obtain ⟨found, hfound, hwaits'⟩ := hl.waiting hmem
    by_cases hsame : other = ask
    · cases hsame
      cases hask.symm.trans hfound
      exact ⟨stage', if_pos rfl, hwaits caller hmem hwaits'⟩
    · exact ⟨found, (if_neg hsame).trans hfound, hwaits'⟩
  sent_lt := hl.sent_lt
  unsent hother hcaller := by
    rcases asks_put hother with ⟨rfl, rfl⟩ | ⟨-, hother⟩
    · exact hl.unsent hask (hunsent _ hcaller)
    · exact hl.unsent hother hcaller
  failing hother := by
    rcases asks_put hother with ⟨rfl, hsame⟩ | ⟨-, hother⟩
    · exact hfailing _ _ hsame.symm
    · exact hl.failing hother
  returned hother := by
    rcases asks_put hother with ⟨rfl, hsame⟩ | ⟨-, hother⟩
    · exact hreturned _ hsame.symm
    · exact hl.returned hother

theorem Attended.begin (hl : l.Attended) {client : Client} (haccounts : client.Accounts)
    (hcalls : client.calls = l.client.calls + 1)
    (hresults : ∀ result ∈ l.client.results, result ∈ client.results)
    (hwaiting : ∀ waiting ∈ client.inFlight, waiting ∈ l.client.inFlight ∨
      waiting.call = l.client.calls ∧ stage.WaitsUnder waiting.caller)
    (hstage : ∀ caller e, stage ≠ .failing caller e) (hresult : ∀ time, stage ≠ .ended (.ok time)) :
    ((l.within client).put l.client.calls stage).Attended where
  accounts := haccounts
  begun other := by
    show _ ↔ other < client.calls
    rw [hcalls, Nat.lt_succ_iff_lt_or_eq, ← hl.begun]
    by_cases hsame : other = l.client.calls
    · simp [Link.put, hsame]
    · simp [Link.put, Link.within, hsame]
  waiting {caller other} hmem := by
    rcases hwaiting _ hmem with hold | ⟨hnew, hwaits⟩
    · obtain ⟨found, hfound, hwaits⟩ := hl.waiting hold
      have hlt : other < l.client.calls := (hl.begun other).1 (by rw [hfound]; rfl)
      exact ⟨found, (if_neg (Nat.ne_of_lt hlt)).trans hfound, hwaits⟩
    · exact ⟨stage, if_pos hnew, hwaits⟩
  sent_lt request hrequest := by
    show request.call < client.calls
    rw [hcalls]
    exact Nat.lt_succ_of_lt (hl.sent_lt request hrequest)
  unsent hother hcaller request hrequest := by
    rcases asks_put hother with ⟨rfl, -⟩ | ⟨-, hother⟩
    · exact Nat.ne_of_lt (hl.sent_lt request hrequest)
    · exact hl.unsent hother hcaller request hrequest
  failing hother := by
    rcases asks_put hother with ⟨-, hsame⟩ | ⟨-, hother⟩
    · exact absurd hsame.symm (hstage _ _)
    · exact hl.failing hother
  returned hother := by
    rcases asks_put hother with ⟨-, hsame⟩ | ⟨-, hother⟩
    · exact absurd hsame.symm (hresult _)
    · exact hresults _ (hl.returned hother)

theorem Attended.goes (hl : l.Attended) (h : l.Goes encounter ask stage l') :
    (l'.put ask stage).Attended := by
  cases h with
  | refused =>
    exact hl.begin (hl.accounts.refuse _) rfl (fun _ => List.mem_append_left _)
      (fun _ hmem => .inl hmem) (by simp) (by simp)
  | registered _ hunused =>
    refine hl.begin (hl.accounts.enter hunused _) rfl (fun _ hmem => hmem)
      (fun waiting hmem => ?_) (by simp) (by simp)
    rcases List.mem_append.1 hmem with hold | hnew
    · exact .inl hold
    · cases List.mem_singleton.1 hnew
      exact .inr ⟨rfl, rfl⟩
  | rejected hask =>
    exact hl.put hask (fun _ _ hwaits => hwaits) (fun _ hunsent => hunsent)
      (fun _ _ hsame => by cases hsame; exact .inl rfl) (by simp)
  | cleared hask =>
    exact hl.put hask (fun _ _ hwaits => hwaits) (fun _ hunsent => hunsent) (by simp) (by simp)
  | @written _ caller hask =>
    have hput : (l.put ask .awaiting).Attended :=
      hl.put hask (fun _ _ _ => trivial) (by simp [AskStage.unsent?]) (by simp) (by simp)
    have hsent : ∀ request ∈ (l.toChannel.send ⟨caller, ask⟩).sent, request ∈ l.sent ∨
        (l.put ask .awaiting).asks request.call = some .awaiting := by
      intro request hrequest
      rcases List.mem_append.1 hrequest with hold | hnew
      · exact .inl hold
      · rw [List.mem_singleton.1 hnew]
        exact .inr (if_pos rfl)
    exact hput.along hsent
  | @brokenOff _ own hask bytes fault =>
    have hput : (l.put ask (.failing own (.io fault))).Attended :=
      hl.put hask (fun _ _ hwaits => hwaits) (fun _ hunsent => hunsent)
        (fun _ _ hsame => by cases hsame; exact .inr ⟨fault, rfl⟩) (by simp)
    exact hput.along fun _ hrequest => .inl hrequest
  | @withdrawn _ own _ hask =>
    have hwithin := hl.within (hl.accounts.withdraw own) (l.client.tells_withdraw own)
    refine hwithin.put hask (fun caller hmem hwaits => ?_) (by simp [AskStage.unsent?]) (by simp)
      (by simp)
    have hgone := of_decide_eq_true (List.mem_filter.1 hmem).2
    exact absurd hwaits.symm hgone
  | @collected _ result hask hlookup =>
    have htold : (ask, result) ∈ l.client.results := mem_of_lookup hlookup
    refine hl.put hask (fun caller hmem _ => ?_) (by simp [AskStage.unsent?]) (by simp)
      (fun time hsame => ?_)
    · exact absurd htold (hl.accounts.not_told hmem _)
    · cases hsame
      exact htold

theorem Attended.change (hl : l.Attended) (h : l.Change encounter l') : l'.Attended := by
  cases h with
  | idle => exact hl
  | goes hgoes => exact hl.goes hgoes
  | @delivered response rest =>
    have halong : (l.along { l.toChannel with
        downstream := rest
        taken := l.taken + 1 }).Attended := hl.along fun _ hrequest => .inl hrequest
    exact halong.within (hl.accounts.deliver response) (l.client.tells_deliver response)
  | lost =>
    have haccounts : Client.Accounts { l.client with closed := true } :=
      ⟨hl.accounts.callers, hl.accounts.calls⟩
    exact hl.within haccounts ⟨rfl, fun _ hmem => hmem, fun _ hmem => hmem⟩
  | released => exact hl.within hl.accounts.close l.client.tells_close
  | arrived bytes => exact hl.along fun _ hrequest => .inl hrequest

/-! ## Calls in flight and results -/

/-- A call has begun to wait under this caller id. -/
def Registers (l : Link) (encounter : Encounter) (ask : Nat) (caller : CallerId) : Prop :=
  encounter = .call ∧ l.client.calls = ask ∧ l.client.register.1 = some caller

/-- The client reads a response for a call in flight, and this is the timestamp in it. -/
def Answers (l : Link) (encounter : Encounter) (ask : Nat) (caller : CallerId) (time : Timestamp) :
    Prop :=
  encounter = .receive ∧ l.client.closed = false ∧ ⟨caller, ask⟩ ∈ l.client.inFlight ∧
    ∃ rest, Response.take l.downstream = (.ok ⟨caller, time⟩, rest)

theorem Change.inFlight (h : l.Change encounter l') (hmem : ⟨caller, ask⟩ ∈ l'.client.inFlight) :
    ⟨caller, ask⟩ ∈ l.client.inFlight ∨ l.Registers encounter ask caller := by
  cases h with
  | goes hgoes =>
    cases hgoes with
    | refused =>
      exact .inl hmem
    | registered hregister =>
      rcases List.mem_append.1 hmem with hold | hnew
      · exact .inl hold
      · cases List.mem_singleton.1 hnew
        exact .inr ⟨rfl, rfl, hregister⟩
    | withdrawn hask => exact .inl ((l.client.tells_withdraw _).inFlight _ hmem)
    | rejected | cleared | written | brokenOff | collected => exact .inl hmem
  | delivered => exact .inl ((l.client.tells_deliver _).inFlight _ hmem)
  | released => exact .inl (l.client.tells_close.inFlight _ hmem)
  | idle | lost | arrived => exact .inl hmem

/-- A result is one from before, or comes from a response just read, a caller id withdrawn, the
client closed, or a failed registration. -/
theorem Change.told (h : l.Change encounter l') {result : Except TimestampError Timestamp}
    (htold : (ask, result) ∈ l'.client.results) :
    (ask, result) ∈ l.client.results ∨
      (∃ caller time, result = .ok time ∧ l.Answers encounter ask caller time) ∨
      result = .error .closed ∨
      ask = l.client.calls ∧ result = .error (.protocol .noFreeCaller) := by
  cases h with
  | goes hgoes =>
    cases hgoes with
    | refused =>
      rcases List.mem_append.1 htold with hold | hnew
      · exact .inl hold
      · cases List.mem_singleton.1 hnew
        exact .inr (.inr (.inr ⟨rfl, rfl⟩))
    | registered hregister =>
      exact .inl htold
    | withdrawn hask =>
      rcases List.mem_append.1 htold with hold | hnew
      · exact .inl hold
      · obtain ⟨waiting, -, hresult⟩ := List.mem_map.1 hnew
        cases hresult
        exact .inr (.inr (.inl rfl))
    | rejected | cleared | written | brokenOff | collected => exact .inl htold
  | @delivered response rest hopen htake =>
    rcases l.client.deliver_cases response with ⟨-, hsame⟩ | ⟨told, hmem, hdeliver⟩
    · exact .inl (hsame ▸ htold)
    · have hcases : (ask, result) ∈ (l.client.deliver response).results := htold
      rw [hdeliver] at hcases
      rcases List.mem_append.1 hcases with hold | hnew
      · exact .inl hold
      · cases List.mem_singleton.1 hnew
        exact .inr (.inl ⟨response.caller, response.time, rfl, rfl, hopen, hmem, rest, htake⟩)
  | released =>
    rcases List.mem_append.1 htold with hold | hnew
    · exact .inl hold
    · obtain ⟨waiting, -, hresult⟩ := List.mem_map.1 hnew
      cases hresult
      exact .inr (.inr (.inl rfl))
  | idle | lost | arrived => exact .inl htold

theorem Change.results (h : l.Change encounter l') {result : Nat × Except TimestampError Timestamp}
    (htold : result ∈ l.client.results) : result ∈ l'.client.results := by
  cases h with
  | goes hgoes =>
    cases hgoes with
    | refused =>
      exact List.mem_append_left _ htold
    | registered hregister =>
      exact htold
    | withdrawn hask => exact List.mem_append_left _ htold
    | rejected | cleared | written | brokenOff | collected => exact htold
  | delivered => exact (l.client.tells_deliver _).results _ htold
  | released => exact List.mem_append_left _ htold
  | idle | lost | arrived => exact htold

/-- A request is written by a call that was cleared to do so. -/
theorem Change.sent (h : l.Change encounter l') {request : PendingCall}
    (hrequest : request ∈ l'.sent) :
    request ∈ l.sent ∨
      encounter = .write request.call ∧
        l.asks request.call = some (.cleared request.caller) := by
  cases h with
  | goes hgoes =>
    cases hgoes with
    | written hask =>
      rcases List.mem_append.1 hrequest with hold | hnew
      · exact .inl hold
      · rw [List.mem_singleton.1 hnew]
        exact .inr ⟨rfl, hask⟩
    | _ => exact .inl hrequest
  | _ => exact .inl hrequest

/-! ## A timestamp server at the other end -/

/-- To the client's end two links look the same. -/
structure Faces (l l' : Link) : Prop where
  client : l.client = l'.client
  asks : l.asks = l'.asks
  broken : l.broken = l'.broken
  downstream : l.downstream = l'.downstream
  sent : l.sent = l'.sent

theorem Faces.trans {l'' : Link} (h : l.Faces l') (h' : l'.Faces l'') : l.Faces l'' where
  client := h.client.trans h'.client
  asks := h.asks.trans h'.asks
  broken := h.broken.trans h'.broken
  downstream := h.downstream.trans h'.downstream
  sent := h.sent.trans h'.sent

theorem Faces.within (h : l.Faces l') (client : Client) :
    (l.within client).Faces (l'.within client) := { h with client := rfl }

theorem Faces.put (h : l.Faces l') (ask : Nat) (stage : AskStage) :
    (l.put ask stage).Faces (l'.put ask stage) :=
  { h with asks := by simp [Link.put, h.asks] }

theorem Faces.meet (h : l.Faces l') (encounter : Encounter) :
    (l.meet encounter).Faces (l'.meet encounter) := by
  have hlose : l.lose.Faces l'.lose := by
    rw [lose, lose, h.client]
    exact h.within _
  cases encounter with
  | call =>
    simp only [Link.meet, call, h.client]
    split <;> exact (h.within _).put ..
  | check ask =>
    simp only [Link.meet, check, h.asks, h.client]
    split
    · exact h.put ..
    · exact h
  | write ask =>
    simp only [Link.meet, write, h.asks, h.broken]
    split
    · split
      · exact h
      · refine Faces.put ?_ ..
        exact { h with sent := congrArg (· ++ _) h.sent }
    · exact h
  | breakOff ask bytes fault =>
    simp only [Link.meet, breakOff, h.asks]
    split
    · refine Faces.put ?_ ..
      exact { h with broken := rfl }
    · exact h
  | withdraw ask =>
    simp only [Link.meet, withdraw, h.asks, h.client]
    split
    · exact (h.within _).put ..
    · exact h
  | collect ask =>
    simp only [Link.meet, collect, h.asks, h.client]
    split
    · exact h.put ..
    · exact h
  | receive =>
    simp only [Link.meet, receive, h.client, h.downstream]
    split
    · exact h
    · split
      · refine Faces.within ?_ _
        exact { h with downstream := rfl }
      · exact h
      · exact hlose
  | lose => exact hlose
  | release =>
    simp only [Link.meet, release, h.client]
    split
    · exact h.within _
    · exact h
  | arrive bytes => exact { h with downstream := congrArg (· ++ bytes) h.downstream }

/-- A step of a link with a timestamp server is a step of a link with an arbitrary other end. -/
theorem exists_faces_step (l : Link) (host : Host) (event : Event) :
    ∃ encounter, (l.step host event).1.Faces (l.meet encounter) := by
  have hserver : ∀ {channel : Channel}, channel.broken = l.broken → channel.sent = l.sent →
      ∀ bytes, channel.downstream = l.downstream ++ bytes →
      ∃ encounter, (l.along channel).Faces (l.meet encounter) :=
    fun hbroken hsent bytes hdownstream =>
      ⟨.arrive bytes, rfl, rfl, hbroken, hdownstream, hsent⟩
  have hsilent : ∀ {channel : Channel}, channel.broken = l.broken → channel.sent = l.sent →
      channel.downstream = l.downstream →
      ∃ encounter, (l.along channel).Faces (l.meet encounter) :=
    fun hbroken hsent hdownstream =>
      hserver hbroken hsent [] (hdownstream.trans (List.append_nil _).symm)
  cases event with
  | call => exact ⟨.call, rfl, rfl, rfl, rfl, rfl⟩
  | check ask => exact ⟨.check ask, rfl, rfl, rfl, rfl, rfl⟩
  | write ask => exact ⟨.write ask, rfl, rfl, rfl, rfl, rfl⟩
  | breakOff ask bytes fault => exact ⟨.breakOff ask bytes fault, rfl, rfl, rfl, rfl, rfl⟩
  | withdraw ask => exact ⟨.withdraw ask, rfl, rfl, rfl, rfl, rfl⟩
  | collect ask => exact ⟨.collect ask, rfl, rfl, rfl, rfl, rfl⟩
  | receive => exact ⟨.receive, rfl, rfl, rfl, rfl, rfl⟩
  | lose => exact ⟨.lose, rfl, rfl, rfl, rfl, rfl⟩
  | release => exact ⟨.release, rfl, rfl, rfl, rfl, rfl⟩
  | serve =>
    simp only [step, Channel.serve]
    split <;> exact hsilent rfl rfl rfl
  | reply =>
    simp only [step, Channel.reply]
    split
    · split
      · exact hserver rfl rfl _ rfl
      · exact hsilent rfl rfl rfl
      · exact hsilent rfl rfl rfl
    · exact hsilent rfl rfl rfl
  | cutReply bytes =>
    simp only [step, Channel.cutReply]
    split
    · split
      · exact hserver rfl rfl _ rfl
      · exact hsilent rfl rfl rfl
    · exact hsilent rfl rfl rfl
  | shut =>
    simp only [step, Channel.shut]
    split <;> exact hsilent rfl rfl rfl

/-- The client's end of a run against a timestamp server is that of a run against an arbitrary other
end. -/
theorem exists_schedule {links : Nat → Link} (hopened : links 0 = opened)
    (hstep : ∀ count, ∃ host event, links (count + 1) = ((links count).step host event).1) :
    ∃ schedule, ∀ count, (links count).Faces (after schedule count) := by
  have hmeets : ∀ count, ∃ encounter, (links (count + 1)).Faces ((links count).meet encounter) := by
    intro count
    obtain ⟨host, event, hlinks⟩ := hstep count
    rw [hlinks]
    exact exists_faces_step ..
  choose schedule hschedule using hmeets
  refine ⟨schedule, fun count => ?_⟩
  induction count with
  | zero =>
    rw [hopened]
    exact ⟨rfl, rfl, rfl, rfl, rfl⟩
  | succ count ih => exact (hschedule count).trans (ih.meet _)

end Link

end Mvcc
