import Mathlib.Data.List.Nodup
import Mathlib.Data.List.Perm.Basic
import Mvcc.Proofs.Clock.Link

/-!
# Calls in flight

Every call of a client is in flight or has one result, and calls in flight have distinct caller ids.
A new call finds a free caller id whenever one exists.
-/

namespace Mvcc.Client

variable {client : Client} {caller : CallerId} {waiting : PendingCall}

/-! ## Free caller ids -/

theorem exists_add_toInt16 (next : UInt16) (caller : CallerId) :
    ∃ distance < callerIds, (next + UInt16.ofNat distance).toInt16 = caller := by
  refine ⟨(caller.toUInt16 - next).toNat, UInt16.toNat_lt _, ?_⟩
  rw [UInt16.ofNat_toNat, UInt16.add_comm, UInt16.sub_add_cancel]
  exact Int16.toInt16_toUInt16 caller

theorem freeCaller?_eq_none_iff (client : Client) (count : Nat) (next : UInt16) :
    client.freeCaller? count next = none ↔
      ∀ distance < count, client.isInUse (next + UInt16.ofNat distance).toInt16 = true := by
  induction count generalizing next with
  | zero => simp [freeCaller?]
  | succ count ih =>
    have hnext : ∀ distance : Nat, next + 1 + UInt16.ofNat distance =
        next + UInt16.ofNat (distance + 1) := by
      intro distance
      rw [UInt16.add_assoc, UInt16.ofNat_add, UInt16.add_comm 1]
      rfl
    rw [freeCaller?, Nat.forall_lt_succ_left']
    split
    · rename_i hused
      simp [ih, hnext, hused]
    · rename_i hfree
      simp [hfree]

/-- Registration fails only if every caller id is in flight. -/
theorem register_eq_none_iff (client : Client) : client.register.1 = none ↔
    ∀ caller : CallerId, ∃ ask, ⟨caller, ask⟩ ∈ client.inFlight := by
  have hregister : client.register.1 = none ↔
      client.freeCaller? callerIds client.nextCaller = none := by
    have hcalls : ∀ (count : Nat) (next : UInt16),
        freeCaller? { client with calls := client.calls + 1 } count next =
          client.freeCaller? count next := by
      intro count
      induction count with
      | zero => exact fun _ => rfl
      | succ count ih => exact fun next => by rw [freeCaller?, freeCaller?, ih]; rfl
    unfold register
    dsimp only
    rw [hcalls]
    split
    · rename_i hnone
      simp [hnone]
    · rename_i hsome
      simp [hsome]
  have hinUse : ∀ caller, client.isInUse caller = true ↔
      ∃ ask, ⟨caller, ask⟩ ∈ client.inFlight := by
    intro caller
    rw [isInUse, List.any_eq_true]
    constructor
    · rintro ⟨⟨_, ask⟩, hmem, hcaller⟩
      cases of_decide_eq_true hcaller
      exact ⟨ask, hmem⟩
    · rintro ⟨ask, hmem⟩
      exact ⟨⟨caller, ask⟩, hmem, decide_eq_true rfl⟩
  rw [hregister, freeCaller?_eq_none_iff]
  constructor
  · intro hall caller
    obtain ⟨distance, hlt, rfl⟩ := exists_add_toInt16 client.nextCaller caller
    exact (hinUse _).1 (hall distance hlt)
  · exact fun hall distance _ => (hinUse _).2 (hall _)

/-! ## Accounts -/

/-- The calls in flight and the calls with a result, by number. -/
def accounted (client : Client) : List Nat :=
  client.inFlight.map (·.call) ++ client.results.map (·.1)

/-- Caller ids in flight are distinct, and every call is in flight or has a result, exactly once. -/
structure Accounts (client : Client) : Prop where
  callers : (client.inFlight.map (·.caller)).Nodup
  calls : client.accounted.Perm (List.range client.calls)

theorem accounts_connected : connected.Accounts := ⟨.nil, .nil⟩

/-- No call begins, none enters flight, and existing results are kept. -/
structure Tells (client client' : Client) : Prop where
  calls : client'.calls = client.calls
  inFlight : ∀ waiting ∈ client'.inFlight, waiting ∈ client.inFlight
  results : ∀ result ∈ client.results, result ∈ client'.results

theorem tells_withdraw (client : Client) (caller : CallerId) :
    client.Tells (client.withdraw caller) where
  calls := rfl
  inFlight _ hmem := (List.mem_filter.1 hmem).1
  results _ := List.mem_append_left _

theorem tells_close (client : Client) : client.Tells client.close where
  calls := rfl
  inFlight _ hmem := by cases hmem
  results _ := List.mem_append_left _

theorem Accounts.tell (h : client.Accounts) {client' : Client}
    (hcalls : client'.calls = client.calls) {kept told : List PendingCall}
    (hkept : kept.Sublist client.inFlight) (hparts : (kept ++ told).Perm client.inFlight)
    (hinFlight : client'.inFlight = kept)
    {results : List (Nat × Except TimestampError Timestamp)}
    (hresults : client'.results = client.results ++ results)
    (htold : results.map (·.1) = told.map (·.call)) : client'.Accounts where
  callers := hinFlight ▸ h.callers.sublist (hkept.map _)
  calls := by
    have hmap : (kept.map (·.call) ++ told.map (·.call)).Perm (client.inFlight.map (·.call)) := by
      rw [← List.map_append]
      exact hparts.map _
    have hswap : client'.accounted.Perm
        (kept.map (·.call) ++ told.map (·.call) ++ client.results.map (·.1)) := by
      rw [accounted, hinFlight, hresults, List.map_append, htold, List.append_assoc]
      exact List.perm_append_comm.append_left _
    rw [hcalls]
    exact (hswap.trans (hmap.append_right _)).trans h.calls

theorem Accounts.begin (h : client.Accounts) {client' : Client}
    (hcalls : client'.calls = client.calls + 1)
    (hcallers : (client'.inFlight.map (·.caller)).Nodup)
    (haccounted : client'.accounted.Perm (client.accounted ++ [client.calls])) :
    client'.Accounts where
  callers := hcallers
  calls := by
    rw [hcalls, List.range_succ]
    exact haccounted.trans (h.calls.append_right _)

theorem Accounts.refuse (h : client.Accounts) (e : TimestampError) :
    ({ client with calls := client.calls + 1 }.settle client.calls (.error e)).Accounts :=
  h.begin rfl h.callers (by simp [accounted, settle])

theorem Accounts.enter (h : client.Accounts)
    (hunused : ∀ waiting ∈ client.inFlight, waiting.caller ≠ caller) (next : UInt16) :
    Accounts { client with
      calls := client.calls + 1
      nextCaller := next
      inFlight := client.inFlight ++ [⟨caller, client.calls⟩] } := by
  refine h.begin rfl ?_ ?_
  · have hnew : caller ∉ client.inFlight.map (·.caller) := by
      intro hmem
      obtain ⟨waiting, hwaiting, hcaller⟩ := List.mem_map.1 hmem
      exact hunused waiting hwaiting hcaller
    simpa using h.callers.concat hnew
  · simp only [accounted, List.map_append, List.append_assoc]
    exact List.perm_append_comm.append_left _

theorem Accounts.withdraw (h : client.Accounts) (caller : CallerId) :
    (client.withdraw caller).Accounts := by
  refine h.tell rfl List.filter_sublist ?_ rfl rfl (List.map_map ..)
  refine List.perm_append_comm.trans ?_
  simpa using List.filter_append_perm (fun waiting => decide (waiting.caller = caller))
    client.inFlight

theorem Accounts.close (h : client.Accounts) : client.close.Accounts :=
  h.tell rfl (List.nil_sublist _) (List.Perm.refl _) rfl rfl (List.map_map ..)

theorem Accounts.eq_of_caller (h : client.Accounts) {waiting' : PendingCall}
    (hmem : waiting ∈ client.inFlight) (hmem' : waiting' ∈ client.inFlight)
    (hcaller : waiting.caller = waiting'.caller) : waiting = waiting' :=
  List.inj_on_of_nodup_map h.callers hmem hmem' hcaller

theorem Accounts.not_told (h : client.Accounts) (hmem : waiting ∈ client.inFlight)
    (result : Except TimestampError Timestamp) : (waiting.call, result) ∉ client.results := by
  intro hresult
  have hnodup : client.accounted.Nodup := h.calls.nodup_iff.2 List.nodup_range
  exact List.disjoint_of_nodup_append hnodup (List.mem_map.2 ⟨waiting, hmem, rfl⟩)
    (List.mem_map.2 ⟨_, hresult, rfl⟩)

/-- A response without a waiting call changes nothing; any other completes the one call that waits
for it. -/
theorem deliver_cases (client : Client) (response : Response) :
    (∀ waiting ∈ client.inFlight, waiting.caller ≠ response.caller) ∧
        client.deliver response = client ∨
      ∃ ask, ⟨response.caller, ask⟩ ∈ client.inFlight ∧
        client.deliver response = { client with
          inFlight := client.inFlight.filter (·.caller ≠ response.caller)
          results := client.results ++ [(ask, .ok response.time)] } := by
  unfold deliver
  split
  · rename_i hnone
    refine .inl ⟨fun waiting hmem => ?_, rfl⟩
    simpa using List.find?_eq_none.1 hnone waiting hmem
  · rename_i waiting hfind
    obtain ⟨caller, ask⟩ := waiting
    have hcaller : caller = response.caller := by simpa using List.find?_some hfind
    subst hcaller
    exact .inr ⟨ask, List.mem_of_find?_eq_some hfind, rfl⟩

theorem tells_deliver (client : Client) (response : Response) :
    client.Tells (client.deliver response) := by
  rcases client.deliver_cases response with ⟨-, hsame⟩ | ⟨ask, -, hdeliver⟩
  · rw [hsame]
    exact ⟨rfl, fun _ hmem => hmem, fun _ hmem => hmem⟩
  · rw [hdeliver]
    exact ⟨rfl, fun _ hmem => (List.mem_filter.1 hmem).1, fun _ => List.mem_append_left _⟩

theorem Accounts.deliver (h : client.Accounts) (response : Response) :
    (client.deliver response).Accounts := by
  rcases client.deliver_cases response with ⟨-, hsame⟩ | ⟨ask, hmem, hdeliver⟩
  · rw [hsame]
    exact h
  · rw [hdeliver]
    -- Caller ids are distinct, so only this call leaves `inFlight`.
    have hothers : client.inFlight.filter (·.caller ≠ response.caller) =
        client.inFlight.erase ⟨response.caller, ask⟩ := by
      rw [h.callers.of_map.erase_eq_filter]
      refine List.filter_congr fun waiting hwaiting => ?_
      have hsame : waiting.caller = response.caller ↔ waiting = ⟨response.caller, ask⟩ :=
        ⟨h.eq_of_caller hwaiting hmem, fun heq => by rw [heq]⟩
      simp [hsame, bne, beq_eq_decide]
    have hparts : List.Perm (client.inFlight.filter (·.caller ≠ response.caller) ++
        [⟨response.caller, ask⟩]) client.inFlight := by
      rw [hothers]
      exact List.perm_append_comm.trans (List.perm_cons_erase hmem).symm
    exact h.tell rfl List.filter_sublist hparts rfl rfl rfl

end Mvcc.Client
