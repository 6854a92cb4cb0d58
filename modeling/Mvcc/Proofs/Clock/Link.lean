import Mvcc.Proofs.Clock.Channel

/-!
# Calls of a link

A call is registered under its caller id from before its request is written until its response is
read, and no other call is registered under that id. So a response is delivered to the call whose
request it answers, also after caller ids have wrapped around and other calls have failed.
-/

namespace Mvcc

def AskStage.unsent? : AskStage → Option CallerId
  | .registered caller | .cleared caller | .failing caller _ => some caller
  | .awaiting | .ended _ => none

namespace Client

theorem isInUse_of_freeCaller? {client : Client} {count : Nat} {next found : UInt16}
    (h : client.freeCaller? count next = some found) : client.isInUse found.toInt16 = false := by
  induction count generalizing next with
  | zero => cases h
  | succ count ih =>
    rw [freeCaller?] at h
    split at h
    · exact ih h
    · rename_i hfree
      cases h
      simpa using hfree

theorem register_cases (client : Client) :
    client.register = (none, { client with calls := client.calls + 1 }.settle client.calls
      (.error (.protocol .noFreeCaller))) ∨
    ∃ next : UInt16, (∀ waiting ∈ client.inFlight, waiting.caller ≠ next.toInt16) ∧
      client.register = (some next.toInt16, { client with
        calls := client.calls + 1
        nextCaller := next + 1
        inFlight := client.inFlight ++ [⟨next.toInt16, client.calls⟩] }) := by
  unfold register
  dsimp only
  split
  · exact .inl rfl
  · rename_i next hfree
    have hunused := isInUse_of_freeCaller? hfree
    exact .inr ⟨next, by simpa [isInUse] using hunused, rfl⟩

end Client

namespace Link

/-! ## Calls in flight -/

/-- The invariant of the calls of a link, its requests and the calls in flight. -/
structure Orderly (l : Link) : Prop where
  numbered {ask : Nat} {stage : AskStage} (hask : l.asks ask = some stage) : ask < l.client.calls
  sent_lt : ∀ request ∈ l.sent, request.call < l.client.calls
  sent_once : l.sent.Pairwise (·.call ≠ ·.call)
  unsent {ask : Nat} {stage : AskStage} {caller : CallerId} (hask : l.asks ask = some stage)
    (hcaller : stage.unsent? = some caller) : ∀ request ∈ l.sent, request.call ≠ ask
  caller_inj : ∀ waiting ∈ l.client.inFlight, ∀ waiting' ∈ l.client.inFlight,
    waiting.caller = waiting'.caller → waiting = waiting'
  registered {ask : Nat} {stage : AskStage} {caller : CallerId} (hopen : l.client.closed = false)
    (hask : l.asks ask = some stage) (hcaller : stage.unsent? = some caller) :
    ⟨caller, ask⟩ ∈ l.client.inFlight
  /-- While the client is open, every unanswered request is in flight. -/
  waiting (hopen : l.client.closed = false) :
    ∀ request ∈ l.sent.drop l.taken, request ∈ l.client.inFlight

variable {l : Link} {h h' : Host} {ask : Nat} {stage stage' : AskStage} {caller : CallerId}

theorem orderly_opened : opened.Orderly where
  numbered hask := by cases hask
  sent_lt _ hrequest := by cases hrequest
  sent_once := .nil
  unsent hask := by cases hask
  caller_inj _ hwaiting := by cases hwaiting
  registered _ hask := by cases hask
  waiting _ _ hrequest := by cases hrequest

theorem asks_put {other : Nat} (hother : (l.put ask stage').asks other = some stage) :
    other = ask ∧ stage = stage' ∨ other ≠ ask ∧ l.asks other = some stage := by
  by_cases hsame : other = ask
  · exact .inl ⟨hsame, (Option.some.inj ((if_pos hsame).symm.trans hother)).symm⟩
  · exact .inr ⟨hsame, (if_neg hsame).symm.trans hother⟩

theorem Orderly.put (hl : l.Orderly) (hask : l.asks ask = some stage)
    (hcaller : ∀ caller, stage'.unsent? = some caller → stage.unsent? = some caller) :
    (l.put ask stage').Orderly where
  numbered hother := by
    rcases asks_put hother with ⟨rfl, -⟩ | ⟨-, hother⟩
    · exact hl.numbered hask
    · exact hl.numbered hother
  sent_lt := hl.sent_lt
  sent_once := hl.sent_once
  unsent hother hunsent := by
    rcases asks_put hother with ⟨rfl, rfl⟩ | ⟨-, hother⟩
    · exact hl.unsent hask (hcaller _ hunsent)
    · exact hl.unsent hother hunsent
  caller_inj := hl.caller_inj
  registered hopen hother hunsent := by
    rcases asks_put hother with ⟨rfl, rfl⟩ | ⟨-, hother⟩
    · exact hl.registered hopen hask (hcaller _ hunsent)
    · exact hl.registered hopen hother hunsent
  waiting := hl.waiting

theorem Orderly.along (hl : l.Orderly) {channel : Channel} (hkeeps : l.toChannel.Keeps channel) :
    (l.along channel).Orderly where
  numbered := hl.numbered
  sent_lt := hkeeps.sent ▸ hl.sent_lt
  sent_once := hkeeps.sent ▸ hl.sent_once
  unsent hask hcaller := hkeeps.sent ▸ hl.unsent hask hcaller
  caller_inj := hl.caller_inj
  registered := hl.registered
  waiting hopen := hkeeps.sent ▸ hkeeps.taken ▸ hl.waiting hopen

theorem Orderly.close (hl : l.Orderly) {client : Client} (hcalls : client.calls = l.client.calls)
    (hwaiting : ∀ waiting ∈ client.inFlight, waiting ∈ l.client.inFlight)
    (hclosed : client.closed = true) : (l.within client).Orderly where
  numbered hask := hcalls ▸ hl.numbered hask
  sent_lt := hcalls ▸ hl.sent_lt
  sent_once := hl.sent_once
  unsent := hl.unsent
  caller_inj waiting hmem waiting' hmem' :=
    hl.caller_inj waiting (hwaiting waiting hmem) waiting' (hwaiting waiting' hmem')
  registered hopen := by cases hopen.symm.trans hclosed
  waiting hopen := by cases hopen.symm.trans hclosed

theorem Orderly.begin (hl : l.Orderly) {client : Client}
    (hcalls : client.calls = l.client.calls + 1) (hclosed : client.closed = l.client.closed)
    (hwaiting : ∀ waiting ∈ l.client.inFlight, waiting ∈ client.inFlight)
    (hinj : ∀ waiting ∈ client.inFlight, ∀ waiting' ∈ client.inFlight,
      waiting.caller = waiting'.caller → waiting = waiting')
    (hnew : ∀ caller, stage.unsent? = some caller → ⟨caller, l.client.calls⟩ ∈ client.inFlight) :
    ((l.within client).put l.client.calls stage).Orderly where
  numbered {other found} hother := by
    show other < client.calls
    rw [hcalls]
    rcases asks_put hother with ⟨rfl, -⟩ | ⟨-, hother⟩
    · exact Nat.lt_succ_self _
    · exact Nat.lt_succ_of_lt (hl.numbered hother)
  sent_lt request hrequest := by
    show request.call < client.calls
    rw [hcalls]
    exact Nat.lt_succ_of_lt (hl.sent_lt request hrequest)
  sent_once := hl.sent_once
  unsent hother hunsent := by
    rcases asks_put hother with ⟨rfl, rfl⟩ | ⟨-, hother⟩
    · exact fun request hrequest => Nat.ne_of_lt (hl.sent_lt request hrequest)
    · exact hl.unsent hother hunsent
  caller_inj := hinj
  registered hopen hother hunsent := by
    rcases asks_put hother with ⟨rfl, rfl⟩ | ⟨-, hother⟩
    · exact hnew _ hunsent
    · exact hwaiting _ (hl.registered (hclosed.symm.trans hopen) hother hunsent)
  waiting hopen request hrequest :=
    hwaiting request (hl.waiting (hclosed.symm.trans hopen) request hrequest)

theorem Orderly.call (hl : l.Orderly) : l.call.Orderly := by
  unfold Link.call
  rcases l.client.register_cases with hregister | ⟨next, hunused, hregister⟩
  · rw [hregister]
    exact hl.begin rfl rfl (fun _ hmem => hmem) hl.caller_inj fun _ hunsent => by cases hunsent
  · rw [hregister]
    dsimp only
    apply hl.begin
    · rfl
    · rfl
    · exact fun waiting hmem => List.mem_append_left _ hmem
    · intro waiting hmem waiting' hmem' hsame
      rcases List.mem_append.1 hmem with hmem | hmem <;>
        rcases List.mem_append.1 hmem' with hmem' | hmem'
      · exact hl.caller_inj waiting hmem waiting' hmem' hsame
      · cases List.mem_singleton.1 hmem'
        exact absurd hsame (hunused waiting hmem)
      · cases List.mem_singleton.1 hmem
        exact absurd hsame.symm (hunused waiting' hmem')
      · rw [List.mem_singleton.1 hmem, List.mem_singleton.1 hmem']
    · intro caller hunsent
      cases hunsent
      exact List.mem_append_right _ (List.mem_singleton_self _)

theorem Orderly.send (hl : l.Orderly) (hask : l.asks ask = some (.cleared caller)) :
    ((l.along (l.toChannel.send ⟨caller, ask⟩)).put ask .awaiting).Orderly where
  numbered := (hl.put hask fun _ hunsent => by cases hunsent).numbered
  sent_lt request hrequest := by
    rcases List.mem_append.1 hrequest with hold | hnew
    · exact hl.sent_lt request hold
    · rw [List.mem_singleton.1 hnew]
      exact hl.numbered hask
  sent_once := by
    refine List.pairwise_append.2 ⟨hl.sent_once, List.pairwise_singleton .., ?_⟩
    intro request hrequest other hother
    rw [List.mem_singleton.1 hother]
    exact hl.unsent hask rfl request hrequest
  unsent hother hunsent request hrequest := by
    rcases asks_put hother with ⟨-, rfl⟩ | ⟨hne, hother⟩
    · cases hunsent
    · rcases List.mem_append.1 hrequest with hold | hnew
      · exact hl.unsent hother hunsent request hold
      · rw [List.mem_singleton.1 hnew]
        exact hne.symm
  caller_inj := hl.caller_inj
  registered hopen hother hunsent := by
    rcases asks_put hother with ⟨-, rfl⟩ | ⟨-, hother⟩
    · cases hunsent
    · exact hl.registered hopen hother hunsent
  waiting hopen request hrequest := by
    have hcases : request ∈ (l.sent ++ [PendingCall.mk caller ask]).drop l.taken := hrequest
    rw [List.drop_append] at hcases
    rcases List.mem_append.1 hcases with hold | hnew
    · exact hl.waiting hopen request hold
    · rw [List.mem_singleton.1 (List.mem_of_mem_drop hnew)]
      exact hl.registered hopen hask rfl

/-- A withdrawn caller id is not that of another call. -/
theorem Orderly.withdraw (hl : l.Orderly) {e : TimestampError}
    (hask : l.asks ask = some (.failing caller e)) :
    ((l.within (l.client.withdraw caller)).put ask (.ended (.error e))).Orderly := by
  have hkept : ∀ waiting ∈ l.client.inFlight, l.client.closed = false → waiting.call ≠ ask →
      waiting ∈ (l.client.withdraw caller).inFlight := by
    intro waiting hmem hopen hne
    refine List.mem_filter.2 ⟨hmem, decide_eq_true fun hsame => ?_⟩
    have hother := hl.caller_inj waiting hmem _ (hl.registered hopen hask rfl) hsame
    exact hne (congrArg PendingCall.call hother)
  refine ⟨(hl.put hask fun _ hunsent => by cases hunsent).numbered, hl.sent_lt, hl.sent_once,
    fun hother hunsent => ?_, fun waiting hmem waiting' hmem' => ?_,
    fun hopen hother hunsent => ?_, fun hopen request hrequest => ?_⟩
  · rcases asks_put hother with ⟨-, rfl⟩ | ⟨-, hother⟩
    · cases hunsent
    · exact hl.unsent hother hunsent
  · exact hl.caller_inj waiting (List.mem_filter.1 hmem).1 waiting' (List.mem_filter.1 hmem').1
  · rcases asks_put hother with ⟨-, rfl⟩ | ⟨hne, hother⟩
    · cases hunsent
    · exact hkept _ (hl.registered hopen hother hunsent) hopen hne
  · refine hkept request (hl.waiting hopen request hrequest) hopen ?_
    exact hl.unsent hask rfl request (List.mem_of_mem_drop hrequest)

/-- An answer finds the call whose request it answers. -/
theorem Orderly.find?_eq (hl : l.Orderly) (hopen : l.client.closed = false) {request : PendingCall}
    (hfirst : l.sent[l.taken]? = some request) :
    l.client.inFlight.find? (·.caller = request.caller) = some request := by
  obtain ⟨hlt, hrequest⟩ := List.getElem?_eq_some_iff.1 hfirst
  have hmem : request ∈ l.client.inFlight := by
    apply hl.waiting hopen
    rw [List.drop_eq_getElem_cons hlt, hrequest]
    exact List.mem_cons_self
  cases hfind : l.client.inFlight.find? (·.caller = request.caller) with
  | none =>
    have hnone := List.find?_eq_none.1 hfind request hmem
    exact absurd (decide_eq_true rfl) hnone
  | some waiting =>
    have hcaller : waiting.caller = request.caller := by simpa using List.find?_some hfind
    rw [hl.caller_inj waiting (List.mem_of_find?_eq_some hfind) request hmem hcaller]

/-- The response to the oldest unanswered request completes the call that wrote it, and no other
call. -/
theorem Orderly.deliver (hl : l.Orderly) (hopen : l.client.closed = false) {request : PendingCall}
    (hfirst : l.sent[l.taken]? = some request) (time : Timestamp) (rest : Bytes) :
    (l.client.deliver ⟨request.caller, time⟩).results =
        l.client.results ++ [(request.call, .ok time)] ∧
      ((l.along { l.toChannel with downstream := rest, taken := l.taken + 1 }).within
        (l.client.deliver ⟨request.caller, time⟩)).Orderly := by
  obtain ⟨hlt, hrequest⟩ := List.getElem?_eq_some_iff.1 hfirst
  have hsplit := List.drop_eq_getElem_cons hlt
  rw [hrequest] at hsplit
  have hmem : request ∈ l.client.inFlight := by
    apply hl.waiting hopen
    rw [hsplit]
    exact List.mem_cons_self
  have honce : ∀ later ∈ l.sent.drop (l.taken + 1), request.call ≠ later.call := by
    have honce := hl.sent_once.sublist (List.drop_sublist l.taken l.sent)
    rw [hsplit] at honce
    exact (List.pairwise_cons.1 honce).1
  have hkept : ∀ waiting ∈ l.client.inFlight, request.call ≠ waiting.call →
      waiting ∈ l.client.inFlight.filter (·.caller ≠ request.caller) := by
    intro waiting hwaiting hne
    refine List.mem_filter.2 ⟨hwaiting, decide_eq_true fun hsame => hne ?_⟩
    rw [hl.caller_inj waiting hwaiting request hmem hsame]
  unfold Client.deliver
  rw [hl.find?_eq hopen hfirst]
  refine ⟨rfl, hl.numbered, hl.sent_lt, hl.sent_once, hl.unsent, fun waiting hw waiting' hw' => ?_,
    fun _ hask hcaller => ?_, fun _ later hlater => ?_⟩
  · exact hl.caller_inj waiting (List.mem_filter.1 hw).1 waiting' (List.mem_filter.1 hw').1
  · refine hkept _ (hl.registered hopen hask hcaller) ?_
    exact hl.unsent hask hcaller request (List.mem_of_getElem? hfirst)
  · refine hkept later (hl.waiting hopen later ?_) (honce later hlater)
    rw [hsplit]
    exact List.mem_cons_of_mem _ hlater

/-! ## Answers find their calls -/

/-- The invariant of a link to a host: every result of a call was returned by the oracle for its
request. -/
structure Sound (l : Link) (h : Host) : Prop where
  orderly : l.Orderly
  channel : l.toChannel.Sound h
  settled {ask : Nat} {time : Timestamp} (hresult : (ask, .ok time) ∈ l.client.results) :
    l.toChannel.Answers h ask time
  returned {ask : Nat} {time : Timestamp} (hask : l.asks ask = some (.ended (.ok time))) :
    l.toChannel.Answers h ask time

theorem sound_opened (h : Host) : opened.Sound h where
  orderly := orderly_opened
  channel := Channel.sound_opened h
  settled hresult := by cases hresult
  returned hask := by cases hask

theorem Sound.mono (hl : l.Sound h) (houtlives : h.Outlives h') : l.Sound h' where
  orderly := hl.orderly
  channel := hl.channel.mono houtlives
  settled hresult := (hl.settled hresult).outlast houtlives
  returned hask := (hl.returned hask).outlast houtlives

structure Effect (l : Link) (h : Host) (l' : Link) (h' : Host) : Prop where
  sound : l'.Sound h'
  grows : l.toChannel.Grows l'.toChannel h.begun

theorem Sound.stays (hl : l.Sound h) : l.Effect h l h := ⟨hl, .refl _⟩

theorem Sound.effect (hl : l.Sound h) {l' : Link} (horderly : l'.Orderly)
    (hchannel : l'.toChannel.Sound h') (hgrows : l.toChannel.Grows l'.toChannel h.begun)
    (houtlives : h.Outlives h')
    (hresults : ∀ ask time, (ask, .ok time) ∈ l'.client.results →
      (ask, .ok time) ∈ l.client.results ∨ l'.toChannel.Answers h' ask time)
    (hasks : ∀ ask time, l'.asks ask = some (.ended (.ok time)) →
      l.asks ask = some (.ended (.ok time)) ∨ (ask, .ok time) ∈ l.client.results) :
    l.Effect h l' h' := by
  refine ⟨⟨horderly, hchannel, fun {ask time} hresult => ?_, fun {ask time} hask => ?_⟩, hgrows⟩
  · rcases hresults ask time hresult with hold | hnew
    · exact ((hl.settled hold).mono hgrows).outlast houtlives
    · exact hnew
  · rcases hasks ask time hask with hold | hresult
    · exact ((hl.returned hold).mono hgrows).outlast houtlives
    · exact ((hl.settled hresult).mono hgrows).outlast houtlives

theorem Sound.effect_of_client (hl : l.Sound h) {l' : Link} (horderly : l'.Orderly)
    (hchannel : l'.toChannel = l.toChannel)
    (hresults : ∀ ask time, (ask, .ok time) ∈ l'.client.results →
      (ask, .ok time) ∈ l.client.results)
    (hasks : ∀ ask time, l'.asks ask = some (.ended (.ok time)) →
      l.asks ask = some (.ended (.ok time)) ∨ (ask, .ok time) ∈ l.client.results) :
    l.Effect h l' h := by
  apply hl.effect horderly
  · rw [hchannel]
    exact hl.channel
  · rw [hchannel]
    exact .refl _
  · exact .refl h
  · exact fun ask time hresult => .inl (hresults ask time hresult)
  · exact hasks

theorem Sound.effect_of_channel (hl : l.Sound h) {channel : Channel}
    (hchannel : channel.Sound h') (hgrows : l.toChannel.Grows channel h.begun)
    (houtlives : h.Outlives h') (hkeeps : l.toChannel.Keeps channel) :
    l.Effect h (l.along channel) h' := by
  apply hl.effect (hl.orderly.along hkeeps) hchannel hgrows houtlives
  · exact fun _ _ hresult => .inl hresult
  · exact fun _ _ hask => .inl hask

theorem Sound.effect_of_quiet (hl : l.Sound h) {channel : Channel} (hchannel : channel.Sound h)
    (hquiet : l.toChannel.Quiet channel) : l.Effect h (l.along channel) h :=
  hl.effect_of_channel hchannel (.of_quiet hquiet) (.refl h) hquiet.toKeeps

theorem returned_of_put {other : Nat} {time : Timestamp} (hstage : stage ≠ .ended (.ok time))
    (hother : (l.put ask stage).asks other = some (.ended (.ok time))) :
    l.asks other = some (.ended (.ok time)) := by
  rcases asks_put hother with ⟨-, hsame⟩ | ⟨-, hother⟩
  · exact absurd hsame.symm hstage
  · exact hother

theorem settled_of_append {results failures : List (Nat × Except TimestampError Timestamp)}
    (hfailures : ∀ failure ∈ failures, ∃ e, failure.2 = .error e) {time : Timestamp}
    (hresult : (ask, .ok time) ∈ results ++ failures) : (ask, .ok time) ∈ results := by
  rcases List.mem_append.1 hresult with hold | hnew
  · exact hold
  · obtain ⟨e, he⟩ := hfailures _ hnew
    cases he

theorem Sound.call (hl : l.Sound h) : l.Effect h l.call h := by
  have horderly := hl.orderly.call
  unfold Link.call at horderly ⊢
  rcases l.client.register_cases with hregister | ⟨next, -, hregister⟩
  · rw [hregister] at horderly ⊢
    apply hl.effect_of_client horderly rfl
    · intro ask time hresult
      apply settled_of_append _ hresult
      intro failure hmem
      rw [List.mem_singleton.1 hmem]
      exact ⟨_, rfl⟩
    · exact fun ask time hask => .inl (returned_of_put (by simp) hask)
  · rw [hregister] at horderly ⊢
    apply hl.effect_of_client horderly rfl
    · exact fun ask time hresult => hresult
    · exact fun ask time hask => .inl (returned_of_put (by simp) hask)

theorem Sound.check (hl : l.Sound h) (ask : Nat) : l.Effect h (l.check ask) h := by
  unfold Link.check
  split
  · rename_i caller hask
    apply hl.effect_of_client (hl.orderly.put hask _) rfl
    · exact fun ask time hresult => hresult
    · intro ask time hother
      refine .inl (returned_of_put ?_ hother)
      split <;> simp
    · intro caller' hunsent
      split at hunsent <;> exact hunsent
  · exact hl.stays

theorem Sound.write (hl : l.Sound h) (ask : Nat) : l.Effect h (l.write ask) h := by
  unfold Link.write
  split
  · rename_i caller hask
    split
    · exact hl.stays
    · rename_i hbroken
      apply hl.effect (hl.orderly.send hask)
      · exact hl.channel.send (by simpa using hbroken) _
      · exact .send ..
      · exact .refl h
      · exact fun ask time hresult => .inl hresult
      · exact fun ask time hother => .inl (returned_of_put (by simp) hother)
  · exact hl.stays

theorem Sound.breakOff (hl : l.Sound h) (ask : Nat) (bytes : Fin requestLength) (fault : IoFault) :
    l.Effect h (l.breakOff ask bytes fault) h := by
  unfold Link.breakOff
  split
  · rename_i caller hask
    have hput : (l.put ask (.failing caller (.io fault))).Orderly :=
      hl.orderly.put hask fun _ hunsent => hunsent
    have hkeeps : l.toChannel.Keeps (l.toChannel.breakOff caller bytes) := ⟨rfl, rfl⟩
    apply hl.effect (hput.along hkeeps)
    · exact hl.channel.breakOff caller bytes
    · exact .of_same rfl rfl
    · exact .refl h
    · exact fun ask time hresult => .inl hresult
    · exact fun ask time hother => .inl (returned_of_put (by simp) hother)
  · exact hl.stays

theorem Sound.withdraw (hl : l.Sound h) (ask : Nat) : l.Effect h (l.withdraw ask) h := by
  unfold Link.withdraw
  split
  · rename_i caller e hask
    apply hl.effect_of_client (hl.orderly.withdraw hask) rfl
    · intro ask time hresult
      apply settled_of_append _ hresult
      intro failure hmem
      obtain ⟨waiting, -, rfl⟩ := List.mem_map.1 hmem
      exact ⟨_, rfl⟩
    · exact fun ask time hother => .inl (returned_of_put (by simp) hother)
  · exact hl.stays

theorem Sound.collect (hl : l.Sound h) (ask : Nat) : l.Effect h (l.collect ask) h := by
  unfold Link.collect
  split
  · rename_i result hask hlookup
    apply hl.effect_of_client (hl.orderly.put hask fun _ hunsent => by cases hunsent) rfl
    · exact fun ask time hresult => hresult
    · intro other time hother
      rcases asks_put hother with ⟨rfl, hsame⟩ | ⟨-, hother⟩
      · cases hsame
        obtain ⟨front, back, hresults, -⟩ := List.lookup_eq_some_iff.1 hlookup
        rw [hresults]
        exact .inr (List.mem_append_right _ List.mem_cons_self)
      · exact .inl hother
  · exact hl.stays

theorem Sound.lose (hl : l.Sound h) : l.Effect h l.lose h := by
  have horderly : l.lose.Orderly := hl.orderly.close rfl (fun _ hmem => hmem) rfl
  apply hl.effect_of_client horderly rfl
  · exact fun ask time hresult => hresult
  · exact fun ask time hask => .inl hask

theorem Sound.release (hl : l.Sound h) : l.Effect h l.release h := by
  unfold Link.release
  split
  · have horderly : (l.within l.client.close).Orderly :=
      hl.orderly.close rfl (fun _ hmem => by cases hmem) rfl
    apply hl.effect_of_client horderly rfl
    · intro ask time hresult
      apply settled_of_append _ hresult
      intro failure hmem
      obtain ⟨waiting, -, rfl⟩ := List.mem_map.1 hmem
      exact ⟨_, rfl⟩
    · exact fun ask time hask => .inl hask
  · exact hl.stays

/-- A response completes the call whose request it answers. -/
theorem Sound.receive (hl : l.Sound h)
    (hvalid : ∀ call time, h.Returned call time → 0 < time ∧ time ≤ Timestamp.greatest) :
    l.Effect h l.receive h := by
  unfold Link.receive
  split
  · exact hl.stays
  · rename_i hopen
    have hopen : l.client.closed = false := by simpa using hopen
    split
    · rename_i response rest htake
      obtain ⟨hreply, hchannel⟩ := hl.channel.take hvalid htake
      obtain ⟨request, hfirst, hcaller, hanswers⟩ := hl.channel.answers hreply
      obtain ⟨caller, time⟩ := response
      cases hcaller
      obtain ⟨hresults, horderly⟩ := hl.orderly.deliver hopen hfirst time rest
      apply hl.effect horderly hchannel
      · exact .of_same rfl rfl
      · exact .refl h
      · intro ask time' hresult
        have hcases : (ask, Except.ok time') ∈ (l.client.deliver ⟨request.caller, time⟩).results :=
          hresult
        rw [hresults] at hcases
        rcases List.mem_append.1 hcases with hold | hnew
        · exact .inl hold
        · cases List.mem_singleton.1 hnew
          exact .inr hanswers
      · exact fun ask time hask => .inl hask
    · exact hl.stays
    · exact hl.lose

/-! ## Steps -/

/-- Nothing but a request that the server reads makes a difference to the host. -/
theorem host_step (l : Link) (h : Host) (event : Event) :
    (l.step h event).2 = h ∨ (l.step h event).2 = h.step .call := by
  cases event with
  | serve =>
    simp only [step, Channel.serve]
    split
    · exact .inr rfl
    · exact .inl rfl
  | _ => exact .inl rfl

theorem Sound.step (hl : l.Sound h) (hh : h.Sound) (hsupplied : h.Supplied) (event : Event) :
    l.Effect h (l.step h event).1 (l.step h event).2 := by
  cases event with
  | call => exact hl.call
  | check ask => exact hl.check ask
  | write ask => exact hl.write ask
  | breakOff ask bytes fault => exact hl.breakOff ask bytes fault
  | withdraw ask => exact hl.withdraw ask
  | collect ask => exact hl.collect ask
  | receive =>
    refine hl.receive fun call time hcall => ?_
    obtain ⟨hpositive, hgreatest, -⟩ := hh.returned hcall
    exact ⟨hpositive, hgreatest⟩
  | lose => exact hl.lose
  | release => exact hl.release
  | serve =>
    have houtlives : h.Outlives (l.toChannel.serve h).2 := by
      rcases l.toChannel.serve_cases h with hsame | ⟨caller, rest, -, -, -, hserve⟩
      · rw [hsame]
        exact .refl h
      · rw [hserve]
        exact hh.outlives_call hsupplied
    exact hl.effect_of_channel (hl.channel.serve (hh.outlives_call hsupplied)) (.serve ..) houtlives
      (Channel.keeps_serve ..)
  | reply => exact hl.effect_of_quiet hl.channel.reply (Channel.quiet_reply ..)
  | cutReply bytes =>
    exact hl.effect_of_quiet (hl.channel.cutReply bytes) (Channel.quiet_cutReply ..)
  | shut => exact hl.effect_of_quiet hl.channel.shut (Channel.quiet_shut ..)

end Link

end Mvcc
