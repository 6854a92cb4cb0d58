import Mvcc.Proofs.Clock.Encounters

/-!
# Routing of responses

For arbitrary bytes from the remote end and every interleaving of calls: a call returns a timestamp
only if a response with its caller id was read while it waited, a response without a waiting call
changes nothing, and a closed client has no waiting calls.
-/

namespace Mvcc

namespace AskStage

def remaining : AskStage → Nat
  | .registered _ => 3
  | .cleared _ => 2
  | .awaiting | .failing _ _ => 1
  | .ended _ => 0

/-- A call that has found the client open and has not failed. -/
def IsHopeful : AskStage → Prop
  | .cleared _ | .awaiting => True
  | .registered _ | .failing _ _ | .ended _ => False

def fault? : AskStage → Option IoFault
  | .failing _ (.io fault) | .ended (.error (.io fault)) => some fault
  | _ => none

/-- A call that has failed with this error, or can only fail with it. -/
def FailsWith (e : TimestampError) : AskStage → Prop
  | .registered _ => e = .closed
  | .failing _ cause => cause = e
  | .ended result => result = .error e
  | .cleared _ | .awaiting => False

end AskStage

namespace Link

variable {l l' : Link} {encounter : Encounter} {ask : Nat} {stage : AskStage} {caller : CallerId}

/-! ## Calls go on -/

theorem Goes.remaining_lt {stage' : AskStage} (h : l.Goes encounter ask stage' l')
    (hl : l.Attended) (hask : l.asks ask = some stage) : stage'.remaining < stage.remaining := by
  cases h with
  | refused | registered =>
    exact absurd ((hl.begun _).1 (by rw [hask]; rfl)) (Nat.lt_irrefl _)
  | rejected hask' | cleared hask' | written hask' | brokenOff hask' | withdrawn hask'
  | collected hask' =>
    cases hask.symm.trans hask'
    simp [AskStage.remaining]

theorem Change.remaining (h : l.Change encounter l') (hl : l.Attended)
    (hask : l.asks ask = some stage) :
    ∃ stage', l'.asks ask = some stage' ∧
      (stage' = stage ∨ stage'.remaining < stage.remaining) := by
  cases h with
  | @goes _ moved _ l'' hgoes =>
    by_cases hsame : ask = moved
    · subst hsame
      exact ⟨_, if_pos rfl, .inr (hgoes.remaining_lt hl hask)⟩
    · exact ⟨stage, (if_neg hsame).trans (hgoes.asks_eq ▸ hask), .inl rfl⟩
  | _ => exact ⟨stage, hask, .inl rfl⟩

theorem Change.ended (h : l.Change encounter l') (hl : l.Attended)
    {result : Except TimestampError Timestamp} (hask : l.asks ask = some (.ended result)) :
    l'.asks ask = some (.ended result) := by
  obtain ⟨stage', hstage', rfl | hlt⟩ := h.remaining hl hask
  · exact hstage'
  · exact absurd hlt (Nat.not_lt_zero _)

theorem Takes.goes (h : l.Takes ask encounter) :
    ∃ stage' l', l.Goes encounter ask stage' l' ∧
      (l.meet encounter).asks ask = some stage' := by
  unfold Takes at h
  split at h
  · rename_i own hask
    subst h
    cases hclosed : l.client.closed with
    | true => exact ⟨_, _, .rejected hask hclosed, by simp [meet, check, hask, hclosed, put]⟩
    | false => exact ⟨_, _, .cleared hask hclosed, by simp [meet, check, hask, hclosed, put]⟩
  · rename_i own hask
    rcases h with ⟨rfl, hwhole⟩ | ⟨bytes, fault, rfl⟩
    · exact ⟨_, _, .written hask hwhole, by simp [meet, write, hask, hwhole, put]⟩
    · exact ⟨_, _, .brokenOff hask bytes fault, by simp [meet, breakOff, hask, put]⟩
  · rename_i hask
    obtain ⟨rfl, htold⟩ := h
    obtain ⟨result, hresult⟩ := Option.isSome_iff_exists.1 htold
    exact ⟨_, _, .collected hask hresult, by simp [meet, collect, hask, hresult, put]⟩
  · rename_i own e hask
    subst h
    exact ⟨_, _, .withdrawn hask, by simp [meet, withdraw, hask, put]⟩
  · cases h
  · cases h

/-! ## Closed clients -/

/-- The client is closed, and every call that may still succeed has a result. -/
structure Drained (l : Link) : Prop where
  closed : l.client.closed = true
  told {ask : Nat} {stage : AskStage} (hask : l.asks ask = some stage)
    (hhopeful : stage.IsHopeful) : ∃ result, (ask, result) ∈ l.client.results

theorem Attended.drained (hl : l.Attended) : (l.within l.client.close).Drained where
  closed := rfl
  told {ask stage} hask _ := by
    have hlt : ask < l.client.calls := (hl.begun ask).1 (by rw [show l.asks ask = _ from hask]; rfl)
    have hmem : ask ∈ l.client.close.accounted :=
      hl.accounts.close.calls.mem_iff.2 (List.mem_range.2 hlt)
    obtain ⟨⟨_, result⟩, hresult, rfl⟩ := List.mem_map.1 hmem
    exact ⟨result, hresult⟩

theorem Drained.change (hdrained : l.Drained) (h : l.Change encounter l') : l'.Drained where
  closed := h.closed hdrained.closed
  told {ask stage} hask hhopeful := by
    have hold : ∀ stage, l.asks ask = some stage → stage.IsHopeful →
        ∃ result, (ask, result) ∈ l'.client.results := by
      intro stage hask hhopeful
      obtain ⟨result, hresult⟩ := hdrained.told hask hhopeful
      exact ⟨result, h.results hresult⟩
    rcases h.asks hask with hask | ⟨l'', hgoes⟩
    · exact hold stage hask hhopeful
    · cases hgoes with
      | cleared _ hopen => cases hopen.symm.trans hdrained.closed
      | written hcleared => exact hold _ hcleared trivial
      | _ => cases hhopeful

/-- In a drained client every call that has not ended can step. -/
theorem Drained.takes (hdrained : l.Drained) (hask : l.asks ask = some stage)
    (hremaining : 0 < stage.remaining) : ∃ encounter, l.Takes ask encounter := by
  unfold Takes
  rw [hask]
  cases stage with
  | registered own => exact ⟨_, rfl⟩
  | cleared own => exact ⟨_, .inr ⟨⟨0, by decide⟩, .refused, rfl⟩⟩
  | awaiting =>
    obtain ⟨result, hresult⟩ := hdrained.told hask trivial
    exact ⟨_, rfl, List.lookup_isSome_iff.2 ⟨_, hresult, beq_self_eq_true ask⟩⟩
  | failing own e => exact ⟨_, rfl⟩
  | ended result => cases hremaining

/-! ## Failing calls -/

/-- The client is closed, and the only result delivered to this call is that; its own write may
still fail. -/
structure Doomed (l : Link) (ask : Nat) : Prop where
  closed : l.client.closed = true
  begun : (l.asks ask).isSome
  told {result : Except TimestampError Timestamp} (htold : (ask, result) ∈ l.client.results) :
    result = .error .closed
  returned {result : Except TimestampError Timestamp}
    (hask : l.asks ask = some (.ended result)) :
    result = .error .closed ∨ ∃ fault, result = .error (.io fault)

theorem Doomed.change (hdoomed : l.Doomed ask) (hl : l.Attended) (h : l.Change encounter l') :
    l'.Doomed ask where
  closed := h.closed hdoomed.closed
  begun := by
    obtain ⟨stage, hask⟩ := Option.isSome_iff_exists.1 hdoomed.begun
    obtain ⟨stage', hask', -⟩ := h.remaining hl hask
    rw [hask']
    rfl
  told htold := by
    rcases h.told htold with hold | ⟨_, _, -, -, hopen, -⟩ | hclosed | ⟨rfl, -⟩
    · exact hdoomed.told hold
    · cases hopen.symm.trans hdoomed.closed
    · exact hclosed
    · exact absurd ((hl.begun _).1 hdoomed.begun) (Nat.lt_irrefl _)
  returned hask := by
    rcases h.asks hask with hask | ⟨l'', hgoes⟩
    · exact hdoomed.returned hask
    · cases hgoes with
      | refused => exact absurd ((hl.begun _).1 hdoomed.begun) (Nat.lt_irrefl _)
      | withdrawn hfailing =>
        rcases hl.failing hfailing with rfl | ⟨fault, rfl⟩
        · exact .inl rfl
        · exact .inr ⟨fault, rfl⟩
      | collected _ hlookup => exact .inl (hdoomed.told (mem_of_lookup hlookup))

/-- The client is closed, and this call, which is about to fail, has not written its request. -/
structure Hopeless (l : Link) (ask : Nat) (e : TimestampError) : Prop where
  closed : l.client.closed = true
  fails : ∃ stage, l.asks ask = some stage ∧ stage.FailsWith e
  unsent : ∀ request ∈ l.sent, request.call ≠ ask

theorem Hopeless.change {e : TimestampError} (hhopeless : l.Hopeless ask e) (hl : l.Attended)
    (h : l.Change encounter l') : l'.Hopeless ask e where
  closed := h.closed hhopeless.closed
  fails := by
    obtain ⟨stage, hask, hfails⟩ := hhopeless.fails
    obtain ⟨stage', hask', -⟩ := h.remaining hl hask
    refine ⟨stage', hask', ?_⟩
    rcases h.asks hask' with hsame | ⟨l'', hgoes⟩
    · cases hask.symm.trans hsame
      exact hfails
    · cases hgoes with
      | refused | registered =>
        exact absurd ((hl.begun _).1 (by rw [hask]; rfl)) (Nat.lt_irrefl _)
      | rejected hregistered =>
        cases hask.symm.trans hregistered
        exact hfails.symm
      | cleared _ hopen => cases hopen.symm.trans hhopeless.closed
      | written hcleared | brokenOff hcleared =>
        cases hask.symm.trans hcleared
        cases hfails
      | withdrawn hfailing =>
        cases hask.symm.trans hfailing
        exact congrArg Except.error hfails
      | collected hawaiting =>
        cases hask.symm.trans hawaiting
        cases hfails
  unsent request hrequest hsame := by
    obtain ⟨stage, hask, hfails⟩ := hhopeless.fails
    rcases h.sent hrequest with hold | ⟨-, hcleared⟩
    · exact hhopeless.unsent request hold hsame
    · rw [hsame] at hcleared
      cases hask.symm.trans hcleared
      cases hfails

/-! ## Runs -/

variable {schedule : Nat → Encounter} {count : Nat}

theorem change_after (schedule : Nat → Encounter) (count : Nat) :
    (after schedule count).Change (schedule count) (after schedule (count + 1)) :=
  change_meet ..

theorem attended_after (schedule : Nat → Encounter) (count : Nat) :
    (after schedule count).Attended := by
  induction count with
  | zero => exact attended_opened
  | succ count ih => exact ih.change (change_after schedule count)

/-- A property that every encounter preserves holds from then on. -/
theorem lasts {P : Link → Prop}
    (hstep : ∀ {l l' : Link} {encounter : Encounter},
      l.Attended → l.Change encounter l' → P l → P l')
    {later : Nat} (hle : count ≤ later) (h : P (after schedule count)) :
    P (after schedule later) := by
  induction hle with
  | refl => exact h
  | step _ ih => exact hstep (attended_after ..) (change_after schedule _) ih

theorem registers_of_inFlight (hmem : ⟨caller, ask⟩ ∈ (after schedule count).client.inFlight) :
    ∃ begun < count, (after schedule begun).Registers (schedule begun) ask caller := by
  induction count with
  | zero => cases hmem
  | succ count ih =>
    rcases (change_after schedule count).inFlight hmem with hold | hnew
    · obtain ⟨begun, hlt, hregisters⟩ := ih hold
      exact ⟨begun, Nat.lt_succ_of_lt hlt, hregisters⟩
    · exact ⟨count, Nat.lt_succ_self count, hnew⟩

/-- The timestamp of a result was read from a response. -/
theorem answers_of_told {time : Timestamp}
    (htold : (ask, .ok time) ∈ (after schedule count).client.results) :
    ∃ read < count, ∃ caller, (after schedule read).Answers (schedule read) ask caller time := by
  induction count with
  | zero => cases htold
  | succ count ih =>
    rcases (change_after schedule count).told htold with
      hold | ⟨caller, time', hresult, hanswers⟩ | hresult | ⟨-, hresult⟩
    · obtain ⟨read, hlt, hanswers⟩ := ih hold
      exact ⟨read, Nat.lt_succ_of_lt hlt, hanswers⟩
    · cases hresult
      exact ⟨count, Nat.lt_succ_self count, caller, hanswers⟩
    · cases hresult
    · cases hresult

theorem not_told_fault {fault : IoFault} :
    (ask, .error (.io fault)) ∉ (after schedule count).client.results := by
  induction count with
  | zero => exact List.not_mem_nil
  | succ count ih =>
    intro htold
    rcases (change_after schedule count).told htold with
      hold | ⟨_, _, hresult, -⟩ | hresult | ⟨-, hresult⟩
    · exact ih hold
    · cases hresult
    · cases hresult
    · cases hresult

/-- A call fails with an error of the connection only if its own write failed. -/
theorem breakOff_of_fault {fault : IoFault} (hask : (after schedule count).asks ask = some stage)
    (hfault : stage.fault? = some fault) :
    (∃ broken < count, ∃ bytes, schedule broken = .breakOff ask bytes fault) ∧
      ∀ request ∈ (after schedule count).sent, request.call ≠ ask := by
  induction count generalizing stage with
  | zero => cases hask
  | succ count ih =>
    have hchange := change_after schedule count
    have hl := attended_after schedule count
    have hold : ∀ {stage : AskStage}, (after schedule count).asks ask = some stage →
        stage.fault? = some fault →
        (∃ broken < count + 1, ∃ bytes, schedule broken = .breakOff ask bytes fault) ∧
          ∀ request ∈ (after schedule (count + 1)).sent, request.call ≠ ask := by
      intro stage hask hfault
      obtain ⟨⟨broken, hlt, hbroken⟩, hunsent⟩ := ih hask hfault
      refine ⟨⟨broken, Nat.lt_succ_of_lt hlt, hbroken⟩, fun request hrequest hsame => ?_⟩
      rcases hchange.sent hrequest with hsent | ⟨-, hcleared⟩
      · exact hunsent request hsent hsame
      · rw [hsame] at hcleared
        cases hask.symm.trans hcleared
        cases hfault
    rcases hchange.asks hask with hask | ⟨l'', hgoes⟩
    · exact hold hask hfault
    · generalize hencounter : schedule count = encounter at hgoes
      cases hgoes with
      | brokenOff hcleared bytes fault =>
        cases hfault
        refine ⟨⟨count, Nat.lt_succ_self count, bytes, hencounter⟩,
          fun request hrequest hsame => ?_⟩
        rcases hchange.sent hrequest with hsent | ⟨hwrite, -⟩
        · exact hl.unsent hcleared rfl request hsent hsame
        · cases hwrite.symm.trans hencounter
      | withdrawn hfailing =>
        rcases hl.failing hfailing with rfl | ⟨cause, rfl⟩
        · cases hfault
        · cases hfault
          exact hold hfailing rfl
      | @collected _ result _ hlookup =>
        have htold := mem_of_lookup hlookup
        cases result with
        | ok time => cases hfault
        | error e =>
          cases e <;> cases hfault
          exact absurd htold not_told_fault
      | _ => cases hfault

/-! ## The client is closed -/

theorem meet_of_ends (h : l.Ends encounter) : l.meet encounter = l.lose := by
  cases encounter with
  | lose => rfl
  | receive =>
    obtain ⟨time, rest, htake⟩ := h
    cases hclosed : l.client.closed with
    | true =>
      have hsame : { l.client with closed := true } = l.client := by rw [← hclosed]
      simp [meet, receive, lose, within, hclosed, hsame]
    | false => simp [meet, receive, hclosed, htake]
  | _ => cases h

theorem Attended.doomed (hl : l.Attended) (hmem : ⟨caller, ask⟩ ∈ l.client.inFlight) :
    l.lose.Doomed ask := by
  obtain ⟨stage, hask, hwaits⟩ := hl.waiting hmem
  refine ⟨rfl, ?_, fun htold => absurd htold (hl.accounts.not_told hmem _), fun hended => ?_⟩
  · rw [show l.lose.asks ask = some stage from hask]
    rfl
  · cases hask.symm.trans hended
    cases hwaits

/-- A call that begins on a closed client fails before it writes. -/
theorem Attended.hopeless (hl : l.Attended) (hclosed : l.client.closed = true) :
    l.call.Hopeless l.client.calls
      (if l.client.register.1.isSome then .closed else .protocol .noFreeCaller) := by
  have hunsent : ∀ request ∈ l.sent, request.call ≠ l.client.calls :=
    fun request hrequest => Nat.ne_of_lt (hl.sent_lt request hrequest)
  rcases l.client.register_cases with hregister | ⟨next, -, hregister⟩
  · rw [call, hregister]
    exact ⟨hclosed, ⟨_, if_pos rfl, rfl⟩, hunsent⟩
  · rw [call, hregister]
    exact ⟨hclosed, ⟨_, if_pos rfl, rfl⟩, hunsent⟩

/-- In a drained client every call ends, given fairness. -/
theorem Drained.ends (hdrained : (after schedule count).Drained) (hdiligent : Diligent schedule ask)
    (hask : (after schedule count).asks ask = some stage) :
    ∃ last result, ∀ later ≥ last, (after schedule later).asks ask = some (.ended result) := by
  induction hsteps : stage.remaining using Nat.strongRecOn generalizing count stage with
  | _ steps ih =>
    rcases Nat.eq_zero_or_pos stage.remaining with hnone | hsome
    · obtain ⟨result, rfl⟩ : ∃ result, stage = .ended result := by
        cases stage with
        | ended result => exact ⟨result, rfl⟩
        | _ => cases hnone
      exact ⟨count, result, fun later hle => lasts (fun hl h => h.ended hl) hle hask⟩
    · obtain ⟨later, hle, htakes⟩ := hdiligent count (hdrained.takes hask hsome)
      have hwaiting : ∃ stage', (after schedule later).asks ask = some stage' ∧
          stage'.remaining ≤ stage.remaining := by
        refine lasts (P := fun l => ∃ stage', l.asks ask = some stage' ∧
          stage'.remaining ≤ stage.remaining) ?_ hle ⟨stage, hask, Nat.le_refl _⟩
        rintro l l' encounter hl h ⟨stage', hask', hfewer⟩
        obtain ⟨stage'', hask'', rfl | hlt⟩ := h.remaining hl hask'
        · exact ⟨_, hask'', hfewer⟩
        · exact ⟨_, hask'', Nat.le_of_lt (Nat.lt_of_lt_of_le hlt hfewer)⟩
      obtain ⟨stage', hask', hfewer⟩ := hwaiting
      obtain ⟨stage'', l'', hgoes, hask''⟩ := htakes.goes
      have hlt := hgoes.remaining_lt (attended_after schedule later) hask'
      have hdrained' : (after schedule (later + 1)).Drained :=
        lasts (fun _ h hd => hd.change h) (Nat.le_succ_of_le hle) hdrained
      exact ih _ (hsteps ▸ Nat.lt_of_lt_of_le hlt hfewer) hdrained' hask'' rfl

/-! ## Main result -/

/-- For arbitrary bytes from the remote end and every interleaving of calls:

* calls in flight have distinct caller ids, every call that began is in flight or has exactly one
  result, and a returned result does not change;
* a call returns a timestamp only if, since it was registered, the client has read a response with
  its caller id and that timestamp, which is above zero;
* a response that is read is delivered to one call, or no call waits for it and nothing changes;
* from the moment the client finds the end of the responses, every call in flight fails because the
  client is closed or because its request could not be written, and every later call writes nothing
  and fails because the client is closed, if it is registered at all;
* once a closed client has released its calls, no call is left waiting;
* a call is refused a registration only when every caller id is in flight. -/
theorem routed (schedule : Nat → Encounter) :
    (∀ count,
      let l := after schedule count
      (l.client.inFlight.map (·.caller)).Nodup ∧
        (l.client.inFlight.map (·.call) ++ l.client.results.map (·.1)).Perm
          (List.range l.client.calls) ∧
        ∀ ask result, l.asks ask = some (.ended result) →
          ∀ later ≥ count, (after schedule later).asks ask = some (.ended result)) ∧
    (∀ count ask time, (after schedule count).asks ask = some (.ended (.ok time)) →
      0 < time.toInt64 ∧ ∃ begun read caller rest, begun < read ∧ read < count ∧
        schedule begun = .call ∧ (after schedule begun).client.calls = ask ∧
        (after schedule begun).client.register.1 = some caller ∧
        schedule read = .receive ∧ (after schedule read).client.closed = false ∧
        ⟨caller, ask⟩ ∈ (after schedule read).client.inFlight ∧
        Response.take (after schedule read).downstream = (.ok ⟨caller, time⟩, rest)) ∧
    (∀ count response rest,
      let l := after schedule count
      l.client.closed = false → Response.take l.downstream = (.ok response, rest) →
      (∃ ask, ⟨response.caller, ask⟩ ∈ l.client.inFlight ∧ l.receive.asks = l.asks ∧
          l.receive.client.results = l.client.results ++ [(ask, .ok response.time)]) ∨
        (∀ waiting ∈ l.client.inFlight, waiting.caller ≠ response.caller) ∧
          l.receive = l.along { l.toChannel with downstream := rest, taken := l.taken + 1 }) ∧
    (∀ count, (after schedule count).Ends (schedule count) → ∀ later > count,
      let l := after schedule later
      (∀ caller ask, ⟨caller, ask⟩ ∈ (after schedule count).client.inFlight →
        ∀ result, l.asks ask = some (.ended result) →
          result = .error .closed ∨
            ∃ fault, result = .error (.io fault) ∧
              (∃ broken < later, ∃ bytes, schedule broken = .breakOff ask bytes fault) ∧
              ∀ request ∈ l.sent, request.call ≠ ask) ∧
      ∀ begun > count, begun < later → schedule begun = .call →
        let ask := (after schedule begun).client.calls
        (∀ caller, l.asks ask ≠ some (.cleared caller)) ∧
          (∀ request ∈ l.sent, request.call ≠ ask) ∧
          ∀ result, l.asks ask = some (.ended result) →
            result = .error (if (after schedule begun).client.register.1.isSome then .closed
              else .protocol .noFreeCaller)) ∧
    (∀ count, (after schedule count).Ends (schedule count) →
      (∃ release > count, schedule release = .release) →
      ∀ ask, Diligent schedule ask → ∀ begun, ((after schedule begun).asks ask).isSome →
        ∃ last result, ∀ later ≥ last, (after schedule later).asks ask = some (.ended result)) ∧
    ∀ count,
      let l := after schedule count
      l.call.asks l.client.calls = some (.ended (.error (.protocol .noFreeCaller))) ↔
        ∀ caller : CallerId, ∃ ask, ⟨caller, ask⟩ ∈ l.client.inFlight := by
  have hclosed : ∀ {count}, (after schedule count).Ends (schedule count) → ∀ later > count,
      (after schedule later).client.closed = true := by
    intro count hends later hlater
    refine lasts (P := fun l => l.client.closed = true) (fun _ h => h.closed) hlater ?_
    rw [after, meet_of_ends hends]
    rfl
  refine ⟨?always, ?answered, ?read, ?closed, ?settled, ?registered⟩
  case always =>
    intro count
    have hl := attended_after schedule count
    exact ⟨hl.accounts.callers, hl.accounts.calls, fun ask result hask later hle =>
      lasts (fun hl h => h.ended hl) hle hask⟩
  case answered =>
    intro count ask time hask
    have htold := (attended_after schedule count).returned hask
    obtain ⟨read, hread, caller, hreceive, hopen, hmem, rest, htake⟩ := answers_of_told htold
    obtain ⟨begun, hbegun, hcall, hcalls, hregister⟩ := registers_of_inFlight hmem
    refine ⟨?_, begun, read, caller, rest, hbegun, hread, hcall, hcalls, hregister, hreceive, hopen,
      hmem, htake⟩
    rcases Response.take_cases (after schedule read).downstream with ⟨_, hcase⟩ | ⟨_, _, hcase⟩ |
      ⟨_, _, hpositive, hcase⟩
    · cases htake.symm.trans hcase
    · cases htake.symm.trans hcase
    · cases htake.symm.trans hcase
      exact hpositive
  case read =>
    intro count response rest l hopen htake
    have hreceive : l.receive =
        (l.along { l.toChannel with downstream := rest, taken := l.taken + 1 }).within
          (l.client.deliver response) := by
      simp [receive, hopen, htake]
    rw [hreceive]
    rcases l.client.deliver_cases response with ⟨hnobody, hsame⟩ | ⟨ask, hmem, hdeliver⟩
    · rw [hsame]
      exact .inr ⟨hnobody, rfl⟩
    · rw [hdeliver]
      exact .inl ⟨ask, hmem, rfl, rfl⟩
  case closed =>
    intro count hends later hlater
    refine ⟨fun caller ask hmem result hask => ?_, fun begun hbegun hlt hcall => ?_⟩
    · have hdoomed : (after schedule later).Doomed ask := by
        refine lasts (P := fun l => l.Doomed ask) (fun hl h hd => hd.change hl h) hlater ?_
        rw [after, meet_of_ends hends]
        exact (attended_after schedule count).doomed hmem
      rcases hdoomed.returned hask with hfailed | ⟨fault, rfl⟩
      · exact .inl hfailed
      · exact .inr ⟨fault, rfl, breakOff_of_fault hask rfl⟩
    · have hbegins := (attended_after schedule begun).hopeless (hclosed hends begun hbegun)
      have hmeet : after schedule (begun + 1) = (after schedule begun).call := by
        rw [after, hcall]
        rfl
      rw [← hmeet] at hbegins
      have hhopeless := lasts (fun hl h hh => Hopeless.change hh hl h) hlt hbegins
      obtain ⟨stage, hask, hfails⟩ := hhopeless.fails
      refine ⟨fun caller hcleared => ?_, hhopeless.unsent, fun result hended => ?_⟩
      · cases hask.symm.trans hcleared
        cases hfails
      · cases hask.symm.trans hended
        exact hfails
  case settled =>
    intro count hends hrelease ask hdiligent begun hbegun
    obtain ⟨release, hlater, hrelease⟩ := hrelease
    have hdrained : (after schedule (release + 1)).Drained := by
      have hopen := hclosed hends release hlater
      rw [after, hrelease]
      simp only [meet, Link.release, hopen, if_true]
      exact (attended_after schedule release).drained
    have hlast : (after schedule (max begun (release + 1))).Drained :=
      lasts (fun _ h hd => Drained.change hd h) (Nat.le_max_right ..) hdrained
    have hasked : ∃ stage, (after schedule (max begun (release + 1))).asks ask = some stage := by
      refine lasts (P := fun l => ∃ stage, l.asks ask = some stage) ?_ (Nat.le_max_left ..)
        (Option.isSome_iff_exists.1 hbegun)
      rintro l l' encounter hl h ⟨stage, hask⟩
      obtain ⟨stage', hask', -⟩ := h.remaining hl hask
      exact ⟨stage', hask'⟩
    obtain ⟨stage, hask⟩ := hasked
    exact hlast.ends hdiligent hask
  case registered =>
    intro count l
    rw [← Client.register_eq_none_iff]
    rcases l.client.register_cases with hregister | ⟨next, -, hregister⟩
    · simp [call, hregister, put]
    · simp [call, hregister, put]

/-- One call writes its request, and the connection is lost before there is an answer. -/
def lostEarly (count : Nat) : Encounter :=
  [.call, .check 0, .write 0, .lose, .release, .collect 0].getD count (.arrive [])

theorem diligent_lostEarly : Diligent lostEarly 0 := by
  have hended : ∀ later ≥ 6, (after lostEarly later).asks 0 = some (.ended (.error .closed)) := by
    intro later hle
    exact lasts (P := fun l => l.asks 0 = some (.ended (.error .closed)))
      (fun hl h => h.ended hl) hle rfl
  rintro count ⟨encounter, htakes⟩
  match count, htakes with
  | 0, htakes => cases htakes
  | 1, _ => exact ⟨1, Nat.le_refl _, rfl⟩
  | 2, _ => exact ⟨2, Nat.le_refl _, .inl ⟨rfl, rfl⟩⟩
  | 3, _ | 4, _ | 5, _ => exact ⟨5, by decide, rfl, rfl⟩
  | later + 6, htakes =>
    rw [Takes, hended _ (Nat.le_add_left ..)] at htakes
    cases htakes

/-- The call that was waiting when the connection was lost returns that the client is closed. -/
theorem routed_when_lost :
    (after lostEarly 3).Ends (lostEarly 3) ∧ lostEarly 4 = .release ∧
      ⟨0, 0⟩ ∈ (after lostEarly 3).client.inFlight ∧ Diligent lostEarly 0 ∧
      ∃ last, ∀ later ≥ last, (after lostEarly later).asks 0 = some (.ended (.error .closed)) := by
  obtain ⟨-, -, -, hclosed, hsettled, -⟩ := routed lostEarly
  have hends : (after lostEarly 3).Ends (lostEarly 3) := trivial
  have hmem : (⟨0, 0⟩ : PendingCall) ∈ (after lostEarly 3).client.inFlight := by decide
  refine ⟨hends, rfl, hmem, diligent_lostEarly, ?_⟩
  obtain ⟨last, result, hlast⟩ := hsettled 3 hends ⟨4, by decide, rfl⟩ 0 diligent_lostEarly 1 rfl
  refine ⟨last + 4, fun later hle => ?_⟩
  have hresult := hlast later (Nat.le_trans (Nat.le_add_right ..) hle)
  obtain ⟨hfails, -⟩ := hclosed 3 hends later (by omega)
  rcases hfails 0 0 hmem result hresult with rfl | ⟨fault, -, ⟨broken, -, bytes, hbroken⟩, -⟩
  · exact hresult
  · -- No request breaks off here.
    match broken, hbroken with
    | 0, hbroken | 1, hbroken | 2, hbroken | 3, hbroken | 4, hbroken | 5, hbroken => cases hbroken
    | _ + 6, hbroken => cases hbroken

end Link

end Mvcc
