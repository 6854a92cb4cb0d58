import Mvcc.Clock.Link
import Mvcc.Proofs.Clock.Frame
import Mvcc.Proofs.Clock.Host

/-!
# Channels

The server responds to requests in order. A response carries the caller id of its request and the
timestamp returned by the oracle call made for that request. The bytes in transit are those written
and not yet read.
-/

namespace Mvcc

/-- Calls that have returned stay as they are, and the later ones have greater numbers. -/
structure Host.Outlives (h h' : Host) : Prop where
  begun_le : h.begun ≤ h'.begun
  returned {call : Nat} {time : Timestamp} (hcall : h.Returned call time) : h'.Returned call time

theorem Host.Outlives.refl (h : Host) : h.Outlives h := ⟨Nat.le_refl _, fun h => h⟩

theorem Host.Outlives.trans {h h' h'' : Host} (h₁ : h.Outlives h') (h₂ : h'.Outlives h'') :
    h.Outlives h'' :=
  ⟨Nat.le_trans h₁.begun_le h₂.begun_le, fun hcall => h₂.returned (h₁.returned hcall)⟩

theorem Host.Sound.call_inj {h : Host} (hsound : h.Sound) {call call' : Nat} {time : Timestamp}
    (hcall : h.Returned call time) (hcall' : h.Returned call' time) : call = call' := by
  apply Nat.le_antisymm
  · refine Nat.le_of_not_lt fun hlt => ?_
    exact absurd (hsound.ordered hcall' hcall rfl rfl hlt) (UInt64.lt_irrefl _)
  · refine Nat.le_of_not_lt fun hlt => ?_
    exact absurd (hsound.ordered hcall hcall' rfl rfl hlt) (UInt64.lt_irrefl _)

theorem Host.Sound.outlives_call {h : Host} (hsound : h.Sound) (hsupplied : h.Supplied) :
    h.Outlives (h.step .call) where
  begun_le := by
    simp only [Host.step]
    split
    · exact Nat.le_succ _
    · exact Nat.le_refl _
  returned := (Host.step_call hsound hsupplied).2.returned

theorem Host.Sound.outlives_proceed {h : Host} (hsound : h.Sound) (call : Nat) :
    h.Outlives (h.step (.proceed call)) where
  begun_le := by
    simp only [Host.step]
    split
    · split <;> exact Nat.le_refl _
    · exact Nat.le_refl _
  returned := (Host.step_proceed hsound call).2.returned

theorem Host.Sound.outlives_refuse {h : Host} (hsound : h.Sound) (call : Nat) (e : TimestampError) :
    h.Outlives (h.step (.refuse call e)) where
  begun_le := by
    simp only [Host.step]
    split <;> exact Nat.le_refl _
  returned := (Host.step_refuse hsound call e).2.returned

theorem Host.begun_call {h : Host} (hsession : h.session.isSome) :
    (h.step .call).begun = h.begun + 1 := by
  obtain ⟨s, hsome⟩ := Option.isSome_iff_exists.1 hsession
  simp only [Host.step, hsome]

namespace Channel

theorem getElem?_append_of_some {α : Type} {front : List α} {position : Nat} {found : α}
    (h : front[position]? = some found) (back : List α) :
    (front ++ back)[position]? = some found := by
  obtain ⟨hlt, -⟩ := List.getElem?_eq_some_iff.1 h
  rw [List.getElem?_append_left hlt]
  exact h

/-- How far the server is with the requests that it has read. -/
def Progress (c : Channel) : Prop :=
  match c.server with
  | .reading => c.replies.length = c.served.length
  | .asking caller call =>
    c.replies.length + 1 = c.served.length ∧ c.served[c.replies.length]? = some call ∧
      ∃ request, c.sent[c.replies.length]? = some request ∧ request.caller = caller
  | .closed => True

structure Sound (c : Channel) (h : Host) : Prop where
  served_le : c.served.length ≤ c.sent.length
  served_lt : ∀ call ∈ c.served, call < h.begun
  served_nodup : c.served.Nodup
  upstream : Carries requestLength ((c.sent.drop c.served.length).map (·.caller.encode))
    (c.broken = true) c.upstream
  progress : c.Progress
  taken_le : c.taken ≤ c.replies.length
  downstream : Carries responseLength ((c.replies.drop c.taken).map Response.encode)
    (c.server = .closed) c.downstream
  /-- The n-th response answers the n-th request, with the result of its oracle call. -/
  replied {position : Nat} {response : Response} (hreply : c.replies[position]? = some response) :
    ∃ request call, c.sent[position]? = some request ∧ c.served[position]? = some call ∧
      request.caller = response.caller ∧ h.Returned call response.time

variable {c : Channel} {h h' : Host}

theorem sound_opened (h : Host) : opened.Sound h where
  served_le := Nat.le_refl _
  served_lt _ hcall := nomatch hcall
  served_nodup := .nil
  upstream := .nil (by decide)
  progress := rfl
  taken_le := Nat.le_refl _
  downstream := .nil (by decide)
  replied hreply := nomatch hreply

theorem Sound.mono (hc : c.Sound h) (houtlives : h.Outlives h') : c.Sound h' where
  served_le := hc.served_le
  served_lt call hcall := Nat.lt_of_lt_of_le (hc.served_lt call hcall) houtlives.begun_le
  served_nodup := hc.served_nodup
  upstream := hc.upstream
  progress := hc.progress
  taken_le := hc.taken_le
  downstream := hc.downstream
  replied hreply := by
    obtain ⟨request, call, hrequest, hcall, hcaller, hreturned⟩ := hc.replied hreply
    exact ⟨request, call, hrequest, hcall, hcaller, houtlives.returned hreturned⟩

/-! ## Requests on their way -/

theorem Sound.send (hc : c.Sound h) (hbroken : c.broken = false) (request : PendingCall) :
    (c.send request).Sound h where
  served_le := by
    show c.served.length ≤ (c.sent ++ [request]).length
    have hle := hc.served_le
    rw [List.length_append]
    omega
  served_lt := hc.served_lt
  served_nodup := hc.served_nodup
  upstream := by
    show Carries _ (((c.sent ++ [request]).drop c.served.length).map _) _ _
    rw [List.drop_append_of_le_length hc.served_le, List.map_append]
    exact hc.upstream.append (by rw [hbroken]; decide) request.caller.encode
  progress := by
    have hprogress := hc.progress
    unfold Progress at hprogress ⊢
    dsimp only [Channel.send]
    cases hserver : c.server with
    | reading => simpa only [hserver] using hprogress
    | closed => trivial
    | asking caller call =>
      simp only [hserver] at hprogress
      obtain ⟨hlength, hcall, found, hfound, hcaller⟩ := hprogress
      exact ⟨hlength, hcall, found, getElem?_append_of_some hfound _, hcaller⟩
  taken_le := hc.taken_le
  downstream := hc.downstream
  replied hreply := by
    obtain ⟨found, call, hfound, hcall⟩ := hc.replied hreply
    exact ⟨found, call, getElem?_append_of_some hfound _, hcall⟩

theorem Sound.breakOff (hc : c.Sound h) (caller : CallerId) (bytes : Fin requestLength) :
    (c.breakOff caller bytes).Sound h where
  served_le := hc.served_le
  served_lt := hc.served_lt
  served_nodup := hc.served_nodup
  upstream := by
    dsimp only [Channel.breakOff]
    cases hbroken : c.broken with
    | true => exact hc.upstream.mono fun _ => rfl
    | false =>
      apply hc.upstream.cut
      · rw [hbroken]
        decide
      · have hlt := bytes.isLt
        rw [List.length_take]
        omega
      · rfl
  progress := hc.progress
  taken_le := hc.taken_le
  downstream := hc.downstream
  replied := hc.replied

theorem serve_cases (c : Channel) (h : Host) :
    c.serve h = (c, h) ∨ ∃ caller rest, c.server = .reading ∧ h.session.isSome ∧
      takeRequest c.upstream = (.ok caller, rest) ∧
      c.serve h = ({ c with
        upstream := rest
        server := .asking caller h.begun
        served := c.served ++ [h.begun] }, h.step .call) := by
  unfold serve
  split
  · rename_i s caller rest hserver hsession htake
    exact .inr ⟨caller, rest, hserver, hsession ▸ rfl, htake, rfl⟩
  · exact .inl rfl

/-- What the server reads is the first request that it has not read yet. -/
theorem Sound.read (hc : c.Sound h) {caller : CallerId} {rest : Bytes}
    (htake : takeRequest c.upstream = (.ok caller, rest)) :
    ∃ request, c.sent[c.served.length]? = some request ∧ request.caller = caller ∧
      Carries requestLength ((c.sent.drop (c.served.length + 1)).map (·.caller.encode))
        (c.broken = true) rest := by
  have hupstream := hc.upstream
  have hfit : c.served.length < c.sent.length := by
    -- With no request left there would be fewer bytes than one frame.
    refine Nat.lt_of_not_le fun hall => ?_
    rw [List.drop_of_length_le hall] at hupstream
    have hshort := hupstream.length_lt
    rw [takeRequest, if_pos hshort] at htake
    cases htake
  rw [List.drop_eq_getElem_cons hfit, List.map_cons] at hupstream
  obtain ⟨later, hbytes, hlater⟩ := hupstream.uncons
  rw [hbytes, takeRequest_encode] at htake
  cases htake
  exact ⟨c.sent[c.served.length], List.getElem?_eq_getElem hfit, rfl, hlater⟩

theorem Sound.serve (hc : c.Sound h) (houtlives : h.Outlives (h.step .call)) :
    (c.serve h).1.Sound (c.serve h).2 := by
  rcases c.serve_cases h with hsame | ⟨caller, rest, hserver, hsession, htake, hserve⟩
  · rw [hsame]
    exact hc
  · rw [hserve]
    obtain ⟨request, hrequest, hcaller, hupstream⟩ := hc.read htake
    obtain ⟨hfit, -⟩ := List.getElem?_eq_some_iff.1 hrequest
    have hbegun := Host.begun_call hsession
    have hprogress : c.replies.length = c.served.length := by
      have hprogress := hc.progress
      unfold Progress at hprogress
      rwa [hserver] at hprogress
    refine ⟨?_, ?_, ?_, ?_, ?_, hc.taken_le, ?_, ?_⟩
    · rw [List.length_append]
      exact hfit
    · intro call hcall
      rw [hbegun]
      rcases List.mem_append.1 hcall with hold | hnew
      · exact Nat.lt_succ_of_lt (hc.served_lt call hold)
      · rw [List.mem_singleton.1 hnew]
        exact Nat.lt_succ_self _
    · refine List.nodup_append.2 ⟨hc.served_nodup, List.pairwise_singleton _ _, ?_⟩
      intro call hcall other hother
      rw [List.mem_singleton.1 hother]
      exact Nat.ne_of_lt (hc.served_lt call hcall)
    · rw [List.length_append]
      exact hupstream
    · refine ⟨?_, ?_, request, ?_, hcaller⟩
      · rw [hprogress, List.length_append]
        rfl
      · show (c.served ++ [h.begun])[c.replies.length]? = _
        rw [hprogress, List.getElem?_append_right (Nat.le_refl _), Nat.sub_self]
        rfl
      · show c.sent[c.replies.length]? = _
        rw [hprogress]
        exact hrequest
    · exact hc.downstream.mono fun hclosed => by rw [hserver] at hclosed; cases hclosed
    · intro position response hreply
      obtain ⟨found, call, hfound, hcall, hcaller, hreturned⟩ := hc.replied hreply
      exact ⟨found, call, hfound, getElem?_append_of_some hcall _, hcaller,
        houtlives.returned hreturned⟩

/-! ## Responses on their way -/

/-- A server that has hung up may have left a fragment of a response behind. -/
theorem Sound.hangUp (hc : c.Sound h) {bytes : Bytes}
    (hbytes : Carries responseLength ((c.replies.drop c.taken).map Response.encode) True bytes) :
    { c with downstream := bytes, server := .closed }.Sound h where
  served_le := hc.served_le
  served_lt := hc.served_lt
  served_nodup := hc.served_nodup
  upstream := hc.upstream
  progress := trivial
  taken_le := hc.taken_le
  downstream := hbytes.mono fun _ => rfl
  replied := hc.replied

/-- A response is written for the oldest request that was read and not answered. -/
theorem Sound.reply (hc : c.Sound h) : (c.reply h).Sound h := by
  unfold Channel.reply
  split
  · rename_i caller call hserver
    have hprogress := hc.progress
    unfold Progress at hprogress
    rw [hserver] at hprogress
    obtain ⟨hlength, hcall, request, hrequest, hcaller⟩ := hprogress
    have hopen : ¬ c.server = .closed := by
      rw [hserver]
      intro hclosed
      cases hclosed
    split
    · rename_i time hended
      refine ⟨hc.served_le, hc.served_lt, hc.served_nodup, hc.upstream, ?_, ?_, ?_, ?_⟩
      · show (c.replies ++ [_]).length = c.served.length
        rw [List.length_append]
        exact hlength
      · show c.taken ≤ (c.replies ++ [_]).length
        rw [List.length_append]
        exact Nat.le_succ_of_le hc.taken_le
      · show Carries _ (((c.replies ++ [_]).drop c.taken).map _) _ _
        rw [List.drop_append_of_le_length hc.taken_le, List.map_append]
        exact (hc.downstream.append hopen _).mono fun hclosed => absurd hclosed hopen
      · intro position response hreply
        rcases Nat.lt_trichotomy position c.replies.length with hlt | rfl | hgt
        · rw [List.getElem?_append_left hlt] at hreply
          exact hc.replied hreply
        · rw [List.getElem?_append_right (Nat.le_refl _), Nat.sub_self] at hreply
          cases hreply
          exact ⟨request, call, hrequest, hcall, hcaller, hended⟩
        · have hend : (c.replies ++ [Response.mk caller time]).length ≤ position := by
            rw [List.length_append]
            exact hgt
          cases (List.getElem?_eq_none hend).symm.trans hreply
    · exact hc.hangUp (hc.downstream.mono fun _ => trivial)
    · exact hc
  · exact hc

theorem Sound.cutReply (hc : c.Sound h) (bytes : Fin responseLength) :
    (c.cutReply h bytes).Sound h := by
  unfold Channel.cutReply
  split
  · rename_i caller call hserver
    split
    · apply hc.hangUp
      apply hc.downstream.cut
      · rw [hserver]
        intro hclosed
        cases hclosed
      · have hlt := bytes.isLt
        rw [List.length_take]
        omega
      · trivial
    · exact hc
  · exact hc

theorem Sound.shut (hc : c.Sound h) : c.shut.Sound h := by
  unfold Channel.shut
  split
  · exact hc.hangUp (hc.downstream.mono fun _ => trivial)
  · exact hc

theorem Sound.take (hc : c.Sound h)
    (hvalid : ∀ call time, h.Returned call time → 0 < time ∧ time ≤ Timestamp.greatest)
    {response : Response} {rest : Bytes}
    (htake : Response.take c.downstream = (.ok response, rest)) :
    c.replies[c.taken]? = some response ∧
      { c with downstream := rest, taken := c.taken + 1 }.Sound h := by
  have hdownstream := hc.downstream
  have hfit : c.taken < c.replies.length := by
    refine Nat.lt_of_not_le fun hall => ?_
    rw [List.drop_of_length_le hall] at hdownstream
    have hshort := hdownstream.length_lt
    rw [Response.take, if_pos hshort] at htake
    cases htake
  have hfirst := List.getElem?_eq_getElem hfit
  obtain ⟨_, _, -, -, -, hreturned⟩ := hc.replied hfirst
  obtain ⟨hpositive, hgreatest⟩ := hvalid _ _ hreturned
  rw [List.drop_eq_getElem_cons hfit, List.map_cons] at hdownstream
  obtain ⟨later, hbytes, hlater⟩ := hdownstream.uncons
  rw [hbytes, Response.take_encode hpositive hgreatest] at htake
  cases htake
  exact ⟨hfirst, hc.served_le, hc.served_lt, hc.served_nodup, hc.upstream, hc.progress, hfit,
    hlater, hc.replied⟩

/-! ## Histories of a channel -/

/-- Neither has a request been written nor a response read. -/
structure Keeps (c c' : Channel) : Prop where
  sent : c'.sent = c.sent
  taken : c'.taken = c.taken

structure Quiet (c c' : Channel) : Prop extends c.Keeps c' where
  served : c'.served = c.served

theorem keeps_serve (c : Channel) (h : Host) : c.Keeps (c.serve h).1 := by
  rcases c.serve_cases h with hsame | ⟨caller, rest, -, -, -, hserve⟩
  · rw [hsame]
    exact ⟨rfl, rfl⟩
  · rw [hserve]
    exact ⟨rfl, rfl⟩

theorem quiet_reply (c : Channel) (h : Host) : c.Quiet (c.reply h) := by
  unfold Channel.reply
  split
  · split <;> exact ⟨⟨rfl, rfl⟩, rfl⟩
  · exact ⟨⟨rfl, rfl⟩, rfl⟩

theorem quiet_cutReply (c : Channel) (h : Host) (bytes : Nat) : c.Quiet (c.cutReply h bytes) := by
  unfold Channel.cutReply
  split
  · split <;> exact ⟨⟨rfl, rfl⟩, rfl⟩
  · exact ⟨⟨rfl, rfl⟩, rfl⟩

theorem quiet_shut (c : Channel) : c.Quiet c.shut := by
  unfold Channel.shut
  split <;> exact ⟨⟨rfl, rfl⟩, rfl⟩

/-- The oracle returned a timestamp to the call that the server made for the request of this call.
-/
def Answers (c : Channel) (h : Host) (ask : Nat) (time : Timestamp) : Prop :=
  ∃ call, c.Asked ask call ∧ h.Returned call time

/-- A channel advanced while the oracle calls from `begun` on were made. Requests read since then
are served by these. -/
structure Grows (c c' : Channel) (begun : Nat) : Prop where
  sent : c.sent <+: c'.sent
  served : c.served <+: c'.served
  later {position call : Nat} (hnew : c.served.length ≤ position)
    (hcall : c'.served[position]? = some call) : begun ≤ call

theorem getElem?_of_isPrefix {α : Type} {front whole : List α} (hfront : front <+: whole)
    {position : Nat} {found : α} (h : front[position]? = some found) :
    whole[position]? = some found := by
  obtain ⟨back, rfl⟩ := hfront
  exact getElem?_append_of_some h back

namespace Grows

variable {c' c'' : Channel} {begun begun' : Nat}

theorem of_same (hsent : c'.sent = c.sent) (hserved : c'.served = c.served) :
    c.Grows c' begun where
  sent := hsent ▸ List.prefix_rfl
  served := hserved ▸ List.prefix_rfl
  later hnew hcall := by
    rw [hserved, List.getElem?_eq_none hnew] at hcall
    cases hcall

theorem of_quiet (h : c.Quiet c') : c.Grows c' begun := of_same h.sent h.served

theorem refl (c : Channel) : c.Grows c begun := of_same rfl rfl

theorem trans (h₁ : c.Grows c' begun) (h₂ : c'.Grows c'' begun') (hle : begun ≤ begun') :
    c.Grows c'' begun where
  sent := h₁.sent.trans h₂.sent
  served := h₁.served.trans h₂.served
  later {position call} hnew hcall := by
    by_cases hold : position < c'.served.length
    · have hfirst := List.getElem?_eq_getElem hold
      cases (getElem?_of_isPrefix h₂.served hfirst).symm.trans hcall
      exact h₁.later hnew hfirst
    · exact Nat.le_trans hle (h₂.later (Nat.le_of_not_lt hold) hcall)

theorem mem_served (h : c.Grows c' begun) {call : Nat} (hcall : call ∈ c'.served) :
    call ∈ c.served ∨ begun ≤ call := by
  obtain ⟨position, hposition⟩ := List.getElem?_of_mem hcall
  by_cases hold : position < c.served.length
  · have hfirst := List.getElem?_eq_getElem hold
    cases (getElem?_of_isPrefix h.served hfirst).symm.trans hposition
    exact .inl (List.getElem_mem hold)
  · exact .inr (h.later (Nat.le_of_not_lt hold) hposition)

theorem send (c : Channel) (request : PendingCall) : c.Grows (c.send request) begun where
  sent := List.prefix_append ..
  served := List.prefix_rfl
  later := (refl c).later

theorem serve (c : Channel) (h : Host) : c.Grows (c.serve h).1 h.begun := by
  rcases c.serve_cases h with hsame | ⟨caller, rest, -, -, -, hserve⟩
  · rw [hsame]
    exact refl c
  · rw [hserve]
    refine ⟨List.prefix_rfl, List.prefix_append .., fun {position call} hnew hcall => ?_⟩
    rw [List.getElem?_append_right hnew] at hcall
    exact Nat.le_of_eq (List.mem_singleton.1 (List.mem_of_getElem? hcall)).symm

end Grows

/-- The server makes a call of its own for every request. -/
theorem Sound.asked_inj (hc : c.Sound h) {ask ask' call : Nat} (hasked : c.Asked ask call)
    (hasked' : c.Asked ask' call) : ask = ask' := by
  obtain ⟨position, caller, hsent, hserved⟩ := hasked
  obtain ⟨position', caller', hsent', hserved'⟩ := hasked'
  obtain ⟨hlt, -⟩ := List.getElem?_eq_some_iff.1 hserved
  cases (List.getElem?_inj hlt hc.served_nodup).1 (hserved.trans hserved'.symm)
  cases hsent.symm.trans hsent'
  rfl

theorem Asked.mem_served {ask call : Nat} (hasked : c.Asked ask call) : call ∈ c.served := by
  obtain ⟨position, caller, -, hserved⟩ := hasked
  exact List.mem_of_getElem? hserved

theorem Asked.mono {c' : Channel} {begun ask call : Nat} (hasked : c.Asked ask call)
    (hgrows : c.Grows c' begun) : c'.Asked ask call := by
  obtain ⟨position, caller, hsent, hserved⟩ := hasked
  exact ⟨position, caller, getElem?_of_isPrefix hgrows.sent hsent,
    getElem?_of_isPrefix hgrows.served hserved⟩

theorem Answers.outlast {ask : Nat} {time : Timestamp} (hanswers : c.Answers h ask time)
    (houtlives : h.Outlives h') : c.Answers h' ask time := by
  obtain ⟨call, hasked, hcall⟩ := hanswers
  exact ⟨call, hasked, houtlives.returned hcall⟩

theorem Answers.mono {c' : Channel} {begun ask : Nat} {time : Timestamp}
    (hanswers : c.Answers h ask time) (hgrows : c.Grows c' begun) : c'.Answers h ask time := by
  obtain ⟨call, hasked, hcall⟩ := hanswers
  exact ⟨call, hasked.mono hgrows, hcall⟩

/-- For a request that was not written yet the oracle is asked from then on. -/
theorem Grows.begun_le {c' : Channel} {begun ask call : Nat} (hgrows : c.Grows c' begun)
    (hc : c.Sound h) (hnew : ∀ request ∈ c.sent, request.call ≠ ask) (hasked : c'.Asked ask call) :
    begun ≤ call := by
  obtain ⟨position, caller, hsent, hserved⟩ := hasked
  have hbeyond : c.sent.length ≤ position := by
    refine Nat.le_of_not_lt fun hold => ?_
    have hfirst := List.getElem?_eq_getElem hold
    have hsame := (getElem?_of_isPrefix hgrows.sent hfirst).symm.trans hsent
    have hmem := List.getElem_mem hold
    rw [Option.some.inj hsame] at hmem
    exact hnew _ hmem rfl
  exact hgrows.later (Nat.le_trans hc.served_le hbeyond) hserved

/-- The next response that the client reads answers the oldest unanswered request. -/
theorem Sound.answers (hc : c.Sound h) {position : Nat} {response : Response}
    (hreply : c.replies[position]? = some response) :
    ∃ request, c.sent[position]? = some request ∧ request.caller = response.caller ∧
      c.Answers h request.call response.time := by
  obtain ⟨request, call, hsent, hserved, hcaller, hreturned⟩ := hc.replied hreply
  exact ⟨request, hsent, hcaller, call, ⟨position, request.caller, hsent, hserved⟩, hreturned⟩

end Channel

end Mvcc
