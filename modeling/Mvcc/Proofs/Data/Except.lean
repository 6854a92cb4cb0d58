/-!
# Computations that succeed

A sequence of computations succeeds exactly if each of them does.
-/

namespace Except

variable {ε α β : Type}

theorem ok_bind (a : α) (f : α → Except ε β) : ok a >>= f = f a := rfl

theorem bind_eq_ok_iff {x : Except ε α} {f : α → Except ε β} {b : β} :
    x >>= f = .ok b ↔ ∃ a, x = .ok a ∧ f a = .ok b := by
  cases x <;> simp [bind, Except.bind]

@[simp] theorem mapError_ok {ε' : Type} {wrap : ε → ε'} {a : α} :
    (ok a : Except ε α).mapError wrap = ok a := rfl

@[simp] theorem mapError_error {ε' : Type} {wrap : ε → ε'} {e : ε} :
    (error e : Except ε α).mapError wrap = error (wrap e) := rfl

theorem mapError_eq_ok_iff {ε' : Type} {x : Except ε α} {wrap : ε → ε'} {a : α} :
    x.mapError wrap = .ok a ↔ x = .ok a := by
  cases x <;> simp

theorem isSome_of_option_mapM {f : α → Except ε β} {a : Option α} {found : Option β}
    (h : a.mapM f = .ok found) : found.isSome = a.isSome := by
  cases a with
  | none =>
    cases h
    rfl
  | some a =>
    cases hfa : f a with
    | error e => simp [hfa, Functor.map, Except.map] at h
    | ok b =>
      simp [hfa, Functor.map, Except.map] at h
      rw [← h]
      rfl

theorem list_mapM_cons {f : α → Except ε β} {a : α} {rest : List α} {found : List β} :
    (a :: rest).mapM f = .ok found ↔
      ∃ b others, f a = .ok b ∧ rest.mapM f = .ok others ∧ found = b :: others := by
  rw [List.mapM_cons, bind_eq_ok_iff]
  simp only [bind_eq_ok_iff, pure, Except.pure, ok.injEq]
  constructor
  · rintro ⟨b, hb, others, hothers, rfl⟩
    exact ⟨b, others, hb, hothers, rfl⟩
  · rintro ⟨b, others, hb, hothers, rfl⟩
    exact ⟨b, hb, others, hothers, rfl⟩

theorem list_mapM_eq_ok_map {f : α → Except ε β} {g : α → β} {members : List α}
    (h : ∀ a ∈ members, f a = .ok (g a)) : members.mapM f = .ok (members.map g) := by
  induction members with
  | nil => rfl
  | cons a rest ih =>
    exact list_mapM_cons.2 ⟨g a, rest.map g, h a (by simp),
      ih fun b hb => h b (by simp [hb]), rfl⟩

theorem list_mapM_congr {f g : α → Except ε β} {members : List α}
    (h : ∀ a ∈ members, f a = g a) : members.mapM f = members.mapM g := by
  induction members with
  | nil => rfl
  | cons a rest ih =>
    rw [List.mapM_cons, List.mapM_cons, h a (by simp), ih fun b hb => h b (by simp [hb])]

theorem list_mapM_map {γ : Type} {f : α → Except ε β} {g : γ → α} {members : List γ} :
    (members.map g).mapM f = members.mapM fun c => f (g c) := by
  induction members with
  | nil => rfl
  | cons c rest ih => rw [List.map_cons, List.mapM_cons, List.mapM_cons, ih]

theorem map_list_mapM {γ : Type} {f : α → Except ε β} {g : β → γ} {members : List α} :
    (members.mapM f).map (List.map g) = members.mapM fun a => (f a).map g := by
  induction members with
  | nil => rfl
  | cons a rest ih =>
    rw [List.mapM_cons, List.mapM_cons, ← ih]
    cases f a with
    | error e => rfl
    | ok b => cases rest.mapM f <;> rfl

theorem exists_ok_of_list_mapM {f : α → Except ε β} {members : List α} {found : List β}
    (h : members.mapM f = .ok found) : ∀ a ∈ members, ∃ b, f a = .ok b := by
  induction members generalizing found with
  | nil => simp
  | cons a rest ih =>
    obtain ⟨b, others, hb, hothers, -⟩ := list_mapM_cons.1 h
    intro a' ha'
    rcases List.mem_cons.1 ha' with rfl | hrest
    · exact ⟨b, hb⟩
    · exact ih hothers a' hrest

theorem exists_list_mapM_ok {f : α → Except ε β} {members : List α}
    (h : ∀ a ∈ members, ∃ b, f a = .ok b) : ∃ found, members.mapM f = .ok found := by
  induction members with
  | nil => exact ⟨[], rfl⟩
  | cons a rest ih =>
    obtain ⟨b, hb⟩ := h a (by simp)
    obtain ⟨others, hothers⟩ := ih fun a' ha' => h a' (by simp [ha'])
    exact ⟨b :: others, list_mapM_cons.2 ⟨b, others, hb, hothers, rfl⟩⟩

theorem option_mapM_eq_bind {f : α → Except ε β} {a : Option α} {found : Option β}
    (h : a.mapM f = .ok found) : a.mapM f = .ok (a.bind fun a => (f a).toOption) := by
  cases a with
  | none => rfl
  | some a =>
    cases hfa : f a with
    | error e => simp [hfa, Functor.map, Except.map] at h
    | ok b => simp [hfa, Functor.map, Except.map, Except.toOption]

end Except
