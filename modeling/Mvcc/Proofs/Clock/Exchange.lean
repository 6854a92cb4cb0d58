import Mathlib.Data.Finset.Card
import Mvcc.Clock.Exchange
import Mvcc.Proofs.Clock.Exhaustion

/-!
# Timestamps over the network

In every interleaving of clients, server and oracle, a timestamp returned by a call was allocated by
an oracle call made for its request alone and begun after it. So timestamps are distinct, and a call
that begins after another has returned gets a greater one.
-/

namespace Mvcc.Exchange

variable {x x' : Exchange}

/-! ## Links by number -/

@[simp] theorem link_connect (x : Exchange) (number : Nat) :
    (x.step .connect).link number = x.link number := by
  unfold link
  simp only [step, List.getD_eq_getElem?_getD]
  rcases Nat.lt_trichotomy number x.links.length with hlt | rfl | hgt
  · rw [List.getElem?_append_left hlt]
  · rw [List.getElem?_concat_length, List.getElem?_eq_none (Nat.le_refl _)]
    rfl
  · rw [List.getElem?_eq_none (Nat.le_of_lt hgt), List.getElem?_eq_none]
    simpa using Nat.succ_le_of_lt hgt

theorem step_on_of_le {number : Nat} (hnumber : x.links.length ≤ number) (event : Link.Event) :
    x.step (.on number event) = x := by
  simp only [step, List.getElem?_eq_none hnumber]

theorem step_on {number : Nat} (hnumber : number < x.links.length) (event : Link.Event) :
    x.step (.on number event) =
      ⟨((x.link number).step x.host event).2,
        x.links.set number ((x.link number).step x.host event).1⟩ := by
  have hlink : x.link number = x.links[number] := by
    rw [link, List.getD_eq_getElem?_getD, List.getElem?_eq_getElem hnumber]
    rfl
  simp only [step, List.getElem?_eq_getElem hnumber, hlink]

theorem link_set {number : Nat} (hnumber : number < x.links.length) (h : Host) (l : Link)
    (other : Nat) : (Exchange.mk h (x.links.set number l)).link other =
      if other = number then l else x.link other := by
  unfold link
  simp only [List.getD_eq_getElem?_getD]
  split
  · rename_i hsame
    rw [hsame, List.getElem?_set_self hnumber]
    rfl
  · rename_i hne
    rw [List.getElem?_set_ne (Ne.symm hne)]

theorem length_le_step (x : Exchange) (event : Event) :
    x.links.length ≤ (x.step event).links.length := by
  cases event with
  | connect => simp [step]
  | on number event =>
    simp only [step]
    split
    · simp
    · exact Nat.le_refl _
  | proceed call => exact Nat.le_refl _
  | refuse call e => exact Nat.le_refl _

theorem length_le_run (x : Exchange) (events : List Event) :
    x.links.length ≤ (x.run events).links.length := by
  induction events generalizing x with
  | nil => exact Nat.le_refl _
  | cons event events ih => exact Nat.le_trans (x.length_le_step event) (ih (x.step event))

/-! ## The invariant -/

/-- Every count above the greatest timestamp has used up a connection. -/
def Bounded (x : Exchange) : Prop :=
  ∃ spent : Finset Nat,
    (∀ number ∈ spent, number < x.links.length ∧ (x.link number).toChannel.Spent x.host) ∧
    x.host.counted ≤ Timestamp.greatest.toNat + spent.card

structure Sound (x : Exchange) : Prop where
  host : x.host.Sound
  links (number : Nat) : (x.link number).Sound x.host
  /-- Distinct links make distinct oracle calls. -/
  apart {number number' : Nat} (hne : number ≠ number') :
    ∀ call ∈ (x.link number).served, call ∉ (x.link number').served
  bounded : x.Bounded

structure Grows (x x' : Exchange) : Prop where
  outlives : x.host.Outlives x'.host
  links (number : Nat) :
    (x.link number).toChannel.Grows (x'.link number).toChannel x.host.begun

theorem Grows.refl (x : Exchange) : x.Grows x := ⟨.refl _, fun _ => .refl _⟩

theorem Grows.trans {x'' : Exchange} (h₁ : x.Grows x') (h₂ : x'.Grows x'') : x.Grows x'' where
  outlives := h₁.outlives.trans h₂.outlives
  links number := (h₁.links number).trans (h₂.links number) h₁.outlives.begun_le

/-- As long as there are not too many links, the counter has not been used up. -/
theorem Bounded.supplied (hx : x.Bounded) (hlength : x.links.length < 2 ^ 63) :
    x.host.Supplied := by
  intro s hsession
  obtain ⟨spent, hspent, hcounted⟩ := hx
  have hcard : spent.card ≤ x.links.length := by
    rw [← Finset.card_range x.links.length]
    apply Finset.card_le_card
    intro number hnumber
    exact Finset.mem_range.2 (hspent number hnumber).1
  have hgreatest : Timestamp.greatest.toNat = 2 ^ 63 - 1 := rfl
  simp only [Host.counted, hsession] at hcounted
  unfold Oracle.supply
  omega

/-! ## Steps -/

theorem Sound.step_connect (hx : x.Sound) :
    (x.step .connect).Sound ∧ x.Grows (x.step .connect) := by
  have hlength : (x.step .connect).links.length = x.links.length + 1 := List.length_append
  refine ⟨⟨hx.host, fun number => ?_, fun hne => ?_, ?_⟩, .refl _, fun number => ?_⟩
  · rw [link_connect]
    exact hx.links number
  · rw [link_connect, link_connect]
    exact hx.apart hne
  · obtain ⟨spent, hspent, hcounted⟩ := hx.bounded
    refine ⟨spent, fun number hnumber => ?_, hcounted⟩
    obtain ⟨hlt, hused⟩ := hspent number hnumber
    rw [hlength, link_connect]
    exact ⟨Nat.lt_succ_of_lt hlt, hused⟩
  · rw [link_connect]
    exact .refl _

theorem Sound.step_host (hx : x.Sound) {h : Host} (hh : h.Sound) (houtlives : x.host.Outlives h)
    (hloses : ∀ call, x.host.Loses call → h.Loses call) (hcounted : h.counted = x.host.counted) :
    Exchange.Sound { x with host := h } ∧ x.Grows { x with host := h } := by
  refine ⟨⟨hh, fun number => (hx.links number).mono houtlives, hx.apart, ?_⟩, houtlives,
    fun number => .refl _⟩
  obtain ⟨spent, hspent, hbound⟩ := hx.bounded
  refine ⟨spent, fun number hnumber => ?_, hcounted ▸ hbound⟩
  obtain ⟨hlt, hused⟩ := hspent number hnumber
  exact ⟨hlt, hused.mono hloses⟩

/-- An event on a link uses up its connection only by a request to the oracle. -/
theorem Bounded.step_on (hx : x.Bounded) (hhost : x.host.Sound) (hsupplied : x.host.Supplied)
    {number : Nat} (hnumber : number < x.links.length) (event : Link.Event) :
    (x.step (.on number event)).Bounded := by
  obtain ⟨spent, hspent, hbound⟩ := hx
  rw [Exchange.step_on hnumber]
  have hlength : (x.links.set number ((x.link number).step x.host event).1).length =
      x.links.length := List.length_set
  have hloses : ∀ call, x.host.Loses call → ((x.link number).step x.host event).2.Loses call := by
    intro call hcall
    rcases (x.link number).host_step x.host event with hsame | hcalls
    · rw [hsame]
      exact hcall
    · rw [hcalls]
      exact hcall.call hhost
  have hkept : ∀ other ∈ spent,
      other < x.links.length ∧ ((Exchange.mk ((x.link number).step x.host event).2
        (x.links.set number ((x.link number).step x.host event).1)).link other).toChannel.Spent
          ((x.link number).step x.host event).2 := by
    intro other hother
    obtain ⟨hlt, hused⟩ := hspent other hother
    refine ⟨hlt, ?_⟩
    rw [link_set hnumber]
    split
    · rename_i hsame
      subst hsame
      exact hused.step event
    · exact hused.mono hloses
  by_cases hcounted :
      ((x.link number).step x.host event).2.counted ≤ Timestamp.greatest.toNat + spent.card
  · refine ⟨spent, fun other hother => ?_, hcounted⟩
    rw [hlength]
    exact hkept other hother
  · -- Only a request that was read can have raised the count, and its count is too great.
    obtain ⟨hfresh, hused⟩ : ¬ (x.link number).toChannel.Spent x.host ∧
        ((x.link number).step x.host event).1.toChannel.Spent
          ((x.link number).step x.host event).2 := by
      apply Channel.spent_step
      · intro hsame
        rw [hsame] at hcounted
        exact hcounted hbound
      · omega
    have hnew : number ∉ spent := fun hmem => hfresh (hspent number hmem).2
    refine ⟨insert number spent, fun other hother => ?_, ?_⟩
    · rw [hlength]
      rcases Finset.mem_insert.1 hother with rfl | hother
      · rw [link_set hnumber, if_pos rfl]
        exact ⟨hnumber, hused⟩
      · exact hkept other hother
    · have hle : ((x.link number).step x.host event).2.counted ≤ x.host.counted + 1 := by
        rcases (x.link number).host_step x.host event with hsame | hcalls
        · rw [hsame]
          exact Nat.le_succ _
        · rw [hcalls]
          exact Host.counted_call hsupplied
      show ((x.link number).step x.host event).2.counted ≤ _
      rw [Finset.card_insert_of_notMem hnew]
      omega

theorem Sound.step_on (hx : x.Sound) (hsupplied : x.host.Supplied) {number : Nat}
    (hnumber : number < x.links.length) (event : Link.Event) :
    (x.step (.on number event)).Sound ∧ x.Grows (x.step (.on number event)) := by
  have hbounded := hx.bounded.step_on hx.host hsupplied hnumber event
  have heffect := (hx.links number).step hx.host hsupplied event
  rw [Exchange.step_on hnumber] at hbounded ⊢
  obtain ⟨hhost, houtlives⟩ : ((x.link number).step x.host event).2.Sound ∧
      x.host.Outlives ((x.link number).step x.host event).2 := by
    rcases (x.link number).host_step x.host event with hsame | hcalls
    · rw [hsame]
      exact ⟨hx.host, .refl _⟩
    · rw [hcalls]
      exact ⟨(Host.step_call hx.host hsupplied).1, hx.host.outlives_call hsupplied⟩
  -- A fresh call on this link has a greater number than any on the others.
  have hapart : ∀ {other}, other ≠ number →
      ∀ call ∈ ((x.link number).step x.host event).1.served, call ∉ (x.link other).served := by
    intro other hne call hcall hother
    rcases heffect.grows.mem_served hcall with hold | hnew
    · exact hx.apart (Ne.symm hne) call hold hother
    · have hlt := (hx.links other).channel.served_lt call hother
      exact absurd hnew (Nat.not_le_of_lt hlt)
  refine ⟨⟨hhost, fun other => ?_, fun {other other'} hne => ?_, hbounded⟩, houtlives,
    fun other => ?_⟩
  · rw [link_set hnumber]
    split
    · exact heffect.sound
    · exact (hx.links other).mono houtlives
  · rw [link_set hnumber, link_set hnumber]
    split
    · rename_i hsame
      rw [if_neg fun hsame' => hne (hsame.trans hsame'.symm)]
      exact hapart fun hsame' => hne (hsame.trans hsame'.symm)
    · rename_i hother
      split
      · exact fun call hcall hcall' => hapart hother call hcall' hcall
      · exact hx.apart hne
  · rw [link_set hnumber]
    split
    · rename_i hsame
      rw [hsame]
      exact heffect.grows
    · exact .refl _

theorem Sound.step (hx : x.Sound) (hlength : x.links.length < 2 ^ 63) (event : Event) :
    (x.step event).Sound ∧ x.Grows (x.step event) := by
  cases event with
  | connect => exact hx.step_connect
  | on number event =>
    by_cases hnumber : number < x.links.length
    · exact hx.step_on (hx.bounded.supplied hlength) hnumber event
    · rw [step_on_of_le (Nat.le_of_not_lt hnumber)]
      exact ⟨hx, .refl x⟩
  | proceed call =>
    have hstep := Host.step_proceed hx.host call
    exact hx.step_host hstep.1 (hx.host.outlives_proceed call) (fun _ hloses => hloses.proceed call)
      (Host.counted_proceed ..)
  | refuse call e =>
    have hstep := Host.step_refuse hx.host call e
    exact hx.step_host hstep.1 (hx.host.outlives_refuse call e)
      (fun _ hloses => hloses.refuse call e) (Host.counted_refuse ..)

/-! ## Runs -/

theorem Sound.run (hx : x.Sound) {events : List Event}
    (hlength : (x.run events).links.length < 2 ^ 63) :
    (x.run events).Sound ∧ x.Grows (x.run events) := by
  induction events generalizing x with
  | nil => exact ⟨hx, .refl x⟩
  | cons event events ih =>
    have hstart := Nat.lt_of_le_of_lt (x.length_le_run (event :: events)) hlength
    obtain ⟨hmiddle, hgrows⟩ := hx.step hstart event
    obtain ⟨hend, hgrows'⟩ := ih hmiddle hlength
    exact ⟨hend, hgrows.trans hgrows'⟩

theorem sound_opened (mark : Mark) (blockSize : UInt64) : (opened mark blockSize).Sound where
  host := (Host.step_start (Host.sound_closed mark) blockSize).1
  links number := Link.sound_opened _
  apart _ call hcall := by cases hcall
  bounded := by
    refine ⟨∅, fun number hnumber => absurd hnumber (Finset.notMem_empty number), ?_⟩
    exact Host.counted_start mark blockSize

/-- What a call returned is what the oracle returned to the call that was made for its request. -/
theorem Sound.returned (hx : x.Sound) {number ask : Nat} {time : Timestamp}
    (hreturned : x.Returned number ask time) :
    ∃ call, (x.link number).Asked ask call ∧ x.host.Returned call time :=
  (hx.links number).returned hreturned

/-- A call that has not begun yet is served by an oracle call that has not begun yet. -/
theorem Sound.begun_le (hx : x.Sound) (hgrows : x.Grows x') {number ask call : Nat}
    (hnew : (x.link number).client.calls ≤ ask) (hasked : (x'.link number).Asked ask call) :
    x.host.begun ≤ call := by
  have hunsent : ∀ request ∈ (x.link number).sent, request.call ≠ ask := by
    intro request hrequest
    have hlt := (hx.links number).orderly.sent_lt request hrequest
    omega
  exact (hgrows.links number).begun_le (hx.links number).channel hunsent hasked

theorem Sound.asked_inj (hx : x.Sound) {number number' ask ask' call : Nat}
    (hasked : (x.link number).Asked ask call) (hasked' : (x.link number').Asked ask' call) :
    number = number' ∧ ask = ask' := by
  by_cases hsame : number = number'
  · subst hsame
    exact ⟨rfl, (hx.links number).channel.asked_inj hasked hasked'⟩
  · exact absurd hasked'.mem_served (hx.apart hsame call hasked.mem_served)

theorem run_append (x : Exchange) (before later : List Event) :
    x.run (before ++ later) = (x.run before).run later := List.foldl_append

/-- Any number of clients, with any number of interleaved calls on one link each, against a server
and an oracle with failing stores and broken connections: no two calls return the same timestamp; a
returned timestamp was returned by an oracle call made for this request, which began after the call
did; and a call that begins after another one has returned, on any link, returns a greater
timestamp. The bound on the number of links is that of the counter, which wraps after `2 ^ 64`
counts: every count above the greatest timestamp takes a new connection. -/
theorem returned_increasing (mark : Mark) (blockSize : UInt64) (events : List Event)
    (hlength : ((opened mark blockSize).run events).links.length < 2 ^ 63) :
    (∀ number number' ask ask' time,
      ((opened mark blockSize).run events).Returned number ask time →
      ((opened mark blockSize).run events).Returned number' ask' time →
      number = number' ∧ ask = ask') ∧
    (∀ number ask time, ((opened mark blockSize).run events).Returned number ask time →
      ∃ call, (((opened mark blockSize).run events).link number).Asked ask call ∧
        ((opened mark blockSize).run events).host.Returned call time ∧
        ∀ before later, events = before ++ later →
          (((opened mark blockSize).run before).link number).client.calls ≤ ask →
          ((opened mark blockSize).run before).host.begun ≤ call) ∧
    ∀ before later, events = before ++ later → ∀ number number' ask ask' time time',
      ((opened mark blockSize).run before).Returned number ask time →
      (((opened mark blockSize).run before).link number').client.calls ≤ ask' →
      ((opened mark blockSize).run events).Returned number' ask' time' → time < time' := by
  obtain ⟨hsound, -⟩ := (sound_opened mark blockSize).run hlength
  have hsplit : ∀ before later, events = before ++ later →
      ((opened mark blockSize).run before).Sound ∧
      ((opened mark blockSize).run before).Grows ((opened mark blockSize).run events) := by
    intro before later hevents
    subst hevents
    rw [run_append] at hlength ⊢
    have hbefore := Nat.lt_of_le_of_lt (length_le_run _ later) hlength
    obtain ⟨hmiddle, -⟩ := (sound_opened mark blockSize).run hbefore
    exact ⟨hmiddle, (hmiddle.run hlength).2⟩
  refine ⟨fun number number' ask ask' time hfirst hsecond => ?_,
    fun number ask time hreturned => ?_,
    fun before later hevents number number' ask ask' time time' hfirst hnew hsecond => ?_⟩
  · obtain ⟨call, hasked, hcall⟩ := hsound.returned hfirst
    obtain ⟨call', hasked', hcall'⟩ := hsound.returned hsecond
    cases hsound.host.call_inj hcall hcall'
    exact hsound.asked_inj hasked hasked'
  · obtain ⟨call, hasked, hcall⟩ := hsound.returned hreturned
    refine ⟨call, hasked, hcall, fun before later hevents hnew => ?_⟩
    obtain ⟨hmiddle, hgrows⟩ := hsplit before later hevents
    exact hmiddle.begun_le hgrows hnew hasked
  · obtain ⟨hmiddle, hgrows⟩ := hsplit before later hevents
    obtain ⟨call, -, hcall⟩ := hmiddle.returned hfirst
    obtain ⟨call', hasked', hcall'⟩ := hsound.returned hsecond
    have hlt : call < call' :=
      Nat.lt_of_lt_of_le (hmiddle.host.numbered hcall) (hmiddle.begun_le hgrows hnew hasked')
    exact hsound.host.ordered (hgrows.outlives.returned hcall) hcall' rfl rfl hlt

/-- Calls on two links whose requests are under way together. The server reads that of the first
link first, and its store fails. -/
def together : List Event :=
  [.connect, .connect, .on 0 .call, .on 1 .call, .on 1 (.check 0), .on 1 (.write 0),
    .on 0 (.check 0), .on 0 (.write 0), .on 0 .serve, .on 1 .serve, .proceed 0, .proceed 0,
    .proceed 0, .refuse 0 .closed, .proceed 0, .proceed 1, .proceed 1, .proceed 1, .proceed 1,
    .proceed 1, .proceed 1, .proceed 1, .on 0 .reply, .on 1 .reply, .on 1 .receive,
    .on 1 (.collect 0)]

/-- The first client loses its connection, and another one takes its place. -/
def afterwards : List Event :=
  [.on 0 .lose, .on 0 .release, .on 0 (.collect 0), .connect, .on 2 .call, .on 2 (.check 0),
    .on 2 (.write 0), .on 2 .serve, .proceed 2, .proceed 2, .on 2 .reply, .on 2 .receive,
    .on 2 (.collect 0)]

theorem returned_increasing_across_links :
    ((opened (.memory (.startingAt 0)) 2).run (together ++ afterwards)).links.length < 2 ^ 63 ∧
      ((opened (.memory (.startingAt 0)) 2).run together).Returned 1 0 2 ∧
      ((opened (.memory (.startingAt 0)) 2).run (together ++ afterwards)).Returned 2 0 3 ∧
      (2 : Timestamp) < 3 := by
  have hlength : ((opened (.memory (.startingAt 0)) 2).run
      (together ++ afterwards)).links.length < 2 ^ 63 := by
    show 3 < 2 ^ 63
    decide
  have hfirst : ((opened (.memory (.startingAt 0)) 2).run together).Returned 1 0 2 := rfl
  have hlast : ((opened (.memory (.startingAt 0)) 2).run (together ++ afterwards)).Returned 2 0 3 :=
    rfl
  have hnew : (((opened (.memory (.startingAt 0)) 2).run together).link 2).client.calls ≤ 0 := by
    decide
  have hlaw := returned_increasing (.memory (.startingAt 0)) 2 (together ++ afterwards) hlength
  exact ⟨hlength, hfirst, hlast, hlaw.2.2 together afterwards rfl 1 2 0 0 2 3 hfirst hnew hlast⟩

end Mvcc.Exchange
