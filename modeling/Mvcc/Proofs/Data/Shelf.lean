import Mvcc.Proofs.Data.ExpiringCache

/-!
# A bounded cache as a list

A shelf lists keys without repetition in the order of their last insertion, and an insertion into a
full shelf drops the first entry. A cache refines a shelf: the places of its queue that are not
stale are the stored keys, in the order of the shelf.
-/

namespace Mvcc

inductive CacheUse (κ ν : Type) where
  | get (key : κ)
  | insert (key : κ) (value : ν)
  | remove (key : κ)
  | clear

/-- Entries in the order in which their keys were last put there, the oldest first. -/
abbrev Shelf (κ ν : Type) := List (κ × ν)

section

variable {κ ν : Type} [DecidableEq κ]

namespace Shelf

def find? (shelf : Shelf κ ν) (key : κ) : Option ν :=
  (List.find? (·.1 = key) shelf).map (·.2)

def without (shelf : Shelf κ ν) (key : κ) : Shelf κ ν := shelf.filter (·.1 ≠ key)

/-- Move a key to the end with its new value. If the shelf exceeds its capacity, the first entry is
dropped. -/
def put (capacity : Nat) (shelf : Shelf κ ν) (key : κ) (value : ν) : Shelf κ ν :=
  let longer := shelf.without key ++ [(key, value)]
  if capacity < longer.length then longer.tail else longer

/-- Look up a key. Where entries do not keep, it is gone by then. -/
def get (keeps : Bool) (shelf : Shelf κ ν) (key : κ) : Option ν × Shelf κ ν :=
  if keeps then (shelf.find? key, shelf) else (none, shelf.without key)

def next (capacity : Nat) (keeps : Bool) (shelf : Shelf κ ν) : CacheUse κ ν → Shelf κ ν
  | .get key => (shelf.get keeps key).2
  | .insert key value => shelf.put capacity key value
  | .remove key => shelf.without key
  | .clear => []

def after (capacity : Nat) (keeps : Bool) (uses : List (CacheUse κ ν)) : Shelf κ ν :=
  uses.foldl (next capacity keeps) []

theorem find?_put_self {capacity : Nat} (hcapacity : 1 ≤ capacity) (shelf : Shelf κ ν) (key : κ)
    (value : ν) : (shelf.put capacity key value).find? key = some value := by
  have hother : ∀ entry ∈ shelf.without key, ¬ entry.1 = key := by
    intro entry hentry
    simpa using (List.mem_filter.1 hentry).2
  have hend (front : Shelf κ ν) (h : ∀ entry ∈ front, entry ∈ shelf.without key) :
      (front ++ [(key, value)]).find? key = some value := by
    have hnone : List.find? (fun entry => decide (entry.1 = key)) front = none := by
      rw [List.find?_eq_none]
      intro entry hentry
      simpa using hother entry (h entry hentry)
    rw [find?, List.find?_append, hnone]
    simp
  unfold put
  cases hfront : shelf.without key with
  | nil =>
    have hroom : ¬ capacity < 1 := Nat.not_lt.2 hcapacity
    simp [hroom, find?]
  | cons first rest =>
    simp only
    split
    · refine hend rest fun entry hentry => ?_
      rw [hfront]
      exact List.mem_cons_of_mem first hentry
    · refine hend (first :: rest) fun entry hentry => ?_
      rwa [hfront]

end Shelf

namespace ExpiringCache

def next (cache : ExpiringCache κ ν) : CacheUse κ ν → ExpiringCache κ ν
  | .get key => (cache.get key).2
  | .insert key value => cache.insert key value
  | .remove key => cache.remove key
  | .clear => cache.clear

def after (cache : ExpiringCache κ ν) (uses : List (CacheUse κ ν)) : ExpiringCache κ ν :=
  uses.foldl next cache

/-- A step of the cache with checked arithmetic; none where that overflows. -/
def nextChecked? (cache : ExpiringCache κ ν) : CacheUse κ ν → Option (ExpiringCache κ ν)
  | .insert key value => cache.insertChecked? key value
  | use => some (cache.next use)

def afterChecked? (cache : ExpiringCache κ ν) (uses : List (CacheUse κ ν)) :
    Option (ExpiringCache κ ν) :=
  uses.foldlM nextChecked? cache

/-! ## Places in the queue -/

/-- The places at which slots were inserted. -/
def places (slots : List (CacheSlot κ ν)) : List (κ × Nat) :=
  slots.map fun slot => (slot.key, slot.insertion)

/-- Slots have distinct keys, and the queue without its stale places lists them in order. -/
structure InStep (order : List (κ × Nat)) (slots : List (CacheSlot κ ν)) : Prop where
  distinct : slots.Pairwise (·.key ≠ ·.key)
  current : order.filter (isCurrent slots) = places slots

variable {capacity : Nat} {order : List (κ × Nat)} {slots : List (CacheSlot κ ν)}

theorem slot?_of_mem {slot : CacheSlot κ ν} (hdistinct : slots.Pairwise (·.key ≠ ·.key))
    (hslot : slot ∈ slots) : slot? slots slot.key = some slot := by
  induction slots with
  | nil => cases hslot
  | cons first rest ih =>
    obtain ⟨hfirst, hrest⟩ := List.pairwise_cons.1 hdistinct
    cases List.mem_cons.1 hslot with
    | inl hsame =>
      subst hsame
      simp [slot?]
    | inr hmem =>
      have hne : ¬ first.key = slot.key := hfirst slot hmem
      rw [slot?, List.find?_cons_of_neg (by simpa using hne)]
      exact ih hrest hmem

theorem isCurrent_iff (hdistinct : slots.Pairwise (·.key ≠ ·.key)) (place : κ × Nat) :
    isCurrent slots place = true ↔ place ∈ places slots := by
  simp only [isCurrent, decide_eq_true_eq, Option.map_eq_some_iff, places, List.mem_map]
  constructor
  · intro h
    obtain ⟨slot, hfound, hinsertion⟩ := h
    have hkey : slot.key = place.1 := by simpa using List.find?_some hfound
    exact ⟨slot, List.mem_of_find?_eq_some hfound, Prod.ext hkey hinsertion⟩
  · intro h
    obtain ⟨slot, hslot, rfl⟩ := h
    exact ⟨slot, slot?_of_mem hdistinct hslot, rfl⟩

theorem places_without (slots : List (CacheSlot κ ν)) (key : κ) :
    places (without slots key) = (places slots).filter (·.1 ≠ key) := by
  simp only [places, without, List.filter_map]
  rfl

theorem InStep.without (h : InStep order slots) (key : κ) :
    InStep order (without slots key) := by
  have hdistinct : (ExpiringCache.without slots key).Pairwise (·.key ≠ ·.key) :=
    h.distinct.filter _
  refine ⟨hdistinct, ?_⟩
  have hcurrent (place : κ × Nat) :
      isCurrent (ExpiringCache.without slots key) place =
        (isCurrent slots place && decide (place.1 ≠ key)) := by
    rw [Bool.eq_iff_iff, Bool.and_eq_true, isCurrent_iff hdistinct, isCurrent_iff h.distinct,
      places_without, List.mem_filter]
  calc order.filter (isCurrent (ExpiringCache.without slots key))
      = order.filter fun place => isCurrent slots place && decide (place.1 ≠ key) :=
        List.filter_congr fun place _ => hcurrent place
    _ = (order.filter (isCurrent slots)).filter (·.1 ≠ key) := by
        rw [List.filter_filter]
        exact List.filter_congr fun place _ => Bool.and_comm _ _
    _ = places (ExpiringCache.without slots key) := by rw [h.current, places_without]

theorem InStep.append (h : InStep order slots) {key : κ} (value : ν) {insertion : Nat}
    (habsent : ∀ slot ∈ slots, slot.key ≠ key) (hnew : ∀ place ∈ order, place.2 < insertion) :
    InStep (order ++ [(key, insertion)]) (slots ++ [⟨key, value, insertion⟩]) := by
  have hdistinct : (slots ++ [CacheSlot.mk key value insertion]).Pairwise (·.key ≠ ·.key) := by
    refine List.pairwise_append.2 ⟨h.distinct, List.pairwise_singleton _ _, ?_⟩
    intro slot hslot last hlast
    cases List.mem_singleton.1 hlast
    exact habsent slot hslot
  have hplaces : places (slots ++ [⟨key, value, insertion⟩]) =
      places slots ++ [(key, insertion)] := by
    simp [places]
  have hlast : isCurrent (slots ++ [⟨key, value, insertion⟩]) (key, insertion) = true := by
    rw [isCurrent_iff hdistinct, hplaces]
    simp
  have hbefore : order.filter (isCurrent (slots ++ [⟨key, value, insertion⟩])) = places slots := by
    rw [← h.current]
    refine List.filter_congr fun place hplace => ?_
    have hne : place ≠ (key, insertion) := by
      intro hsame
      have hlt := hnew place hplace
      rw [hsame] at hlt
      exact Nat.lt_irrefl _ hlt
    rw [Bool.eq_iff_iff, isCurrent_iff hdistinct, isCurrent_iff h.distinct, hplaces]
    simp [hne]
  refine ⟨hdistinct, ?_⟩
  rw [List.filter_append, hbefore, hplaces, List.filter_cons_of_pos hlast, List.filter_nil]

theorem InStep.sweep (h : InStep order slots) (capacity : Nat) :
    InStep (sweep capacity slots order) slots := by
  refine ⟨h.distinct, ?_⟩
  unfold ExpiringCache.sweep
  split
  · rw [List.filter_filter]
    simpa using h.current
  · exact h.current

theorem mem_of_mem_sweep {place : κ × Nat} (h : place ∈ sweep capacity slots order) :
    place ∈ order := by
  unfold sweep at h
  split at h
  · exact (List.mem_filter.1 h).1
  · exact h

theorem InStep.length_sweep (h : InStep order slots) (hroom : slots.length ≤ capacity) :
    (ExpiringCache.sweep capacity slots order).length ≤ 2 * capacity := by
  have hword : sweepLength capacity ≤ 2 * capacity := Nat.mod_le _ _
  unfold ExpiringCache.sweep
  split
  · rw [h.current, places, List.length_map]
    omega
  · omega

/-! ## Making room -/

theorem InStep.uncons {place : κ × Nat} (h : InStep (place :: order) slots)
    (hcurrent : isCurrent slots place = true) :
    ∃ first rest, slots = first :: rest ∧ ExpiringCache.without slots place.1 = rest ∧
      InStep order rest := by
  have hplaces := h.current
  rw [List.filter_cons_of_pos hcurrent] at hplaces
  cases slots with
  | nil => cases hplaces
  | cons first rest =>
    obtain ⟨hfirst, hdistinct⟩ := List.pairwise_cons.1 h.distinct
    obtain ⟨hplace, hothers⟩ := List.cons.inj hplaces
    have hrest : ExpiringCache.without (first :: rest) place.1 = rest := by
      rw [hplace, ExpiringCache.without, List.filter_cons_of_neg (by simp), List.filter_eq_self]
      intro slot hslot
      simpa using Ne.symm (hfirst slot hslot)
    refine ⟨first, rest, rfl, hrest, hdistinct, ?_⟩
    refine Eq.trans (List.filter_congr fun other hother => ?_) hothers
    rw [Bool.eq_iff_iff, isCurrent_iff hdistinct, isCurrent_iff h.distinct]
    constructor
    · exact List.mem_cons_of_mem _
    · intro hmem
      rw [← isCurrent_iff h.distinct] at hmem
      have hkept := List.mem_filter.2 ⟨hother, hmem⟩
      rwa [hothers] at hkept

theorem InStep.tail {place : κ × Nat} (h : InStep (place :: order) slots)
    (hstale : isCurrent slots place = false) : InStep order slots := by
  refine ⟨h.distinct, ?_⟩
  rw [← h.current, List.filter_cons_of_neg (by simp [hstale])]

/-- Eviction drops the first entries, as many as exceed the capacity. -/
theorem InStep.evict (h : InStep order slots) (capacity : Nat) :
    (ExpiringCache.evict capacity order slots).2 = slots.drop (slots.length - capacity) ∧
      InStep (ExpiringCache.evict capacity order slots).1
        (ExpiringCache.evict capacity order slots).2 ∧
      (ExpiringCache.evict capacity order slots).1 <:+ order := by
  induction order generalizing slots with
  | nil =>
    have hnone : slots = [] := List.map_eq_nil_iff.1 h.current.symm
    subst hnone
    exact ⟨List.drop_nil.symm, h, List.suffix_refl _⟩
  | cons place order ih =>
    unfold ExpiringCache.evict
    by_cases hfull : capacity < slots.length
    · rw [if_pos hfull]
      cases hcurrent : isCurrent slots place with
      | true =>
        obtain ⟨first, rest, rfl, hrest, hinStep⟩ := h.uncons hcurrent
        obtain ⟨hdropped, hleft, hsuffix⟩ := ih hinStep
        have hcount : (first :: rest).length - capacity = rest.length - capacity + 1 := by
          rw [List.length_cons] at hfull ⊢
          omega
        rw [if_pos rfl, hrest, hcount, List.drop_succ_cons]
        exact ⟨hdropped, hleft, hsuffix.trans (List.suffix_cons place order)⟩
      | false =>
        obtain ⟨hdropped, hleft, hsuffix⟩ := ih (h.tail hcurrent)
        rw [if_neg Bool.false_ne_true]
        exact ⟨hdropped, hleft, hsuffix.trans (List.suffix_cons place order)⟩
    · rw [if_neg hfull]
      have hroom : slots.length - capacity = 0 := by omega
      rw [hroom, List.drop_zero]
      exact ⟨rfl, h, List.suffix_refl _⟩

/-! ## A cache and its shelf -/

/-- The cache holds the entries of the shelf, within its bounds. -/
structure Holds (cache : ExpiringCache κ ν) (shelf : Shelf κ ν) : Prop where
  entries : cache.slots.map (fun slot => (slot.key, slot.value)) = shelf
  inStep : InStep cache.order cache.slots
  numbered : ∀ place ∈ cache.order, place.2 < cache.insertions
  roomy : cache.slots.length ≤ cache.capacity
  swept : cache.order.length ≤ 2 * cache.capacity

variable {cache : ExpiringCache κ ν} {shelf : Shelf κ ν}

theorem holds_nil (hslots : cache.slots = []) (horder : cache.order = []) : Holds cache [] where
  entries := by rw [hslots, List.map_nil]
  inStep := by
    rw [hslots, horder]
    exact ⟨List.Pairwise.nil, rfl⟩
  numbered := by simp [horder]
  roomy := by simp [hslots]
  swept := by simp [horder]

theorem Holds.size (h : Holds cache shelf) : cache.slots.length = shelf.length := by
  rw [← h.entries, List.length_map]

theorem Holds.distinct (h : Holds cache shelf) : shelf.Pairwise (·.1 ≠ ·.1) := by
  rw [← h.entries, List.pairwise_map]
  exact h.inStep.distinct

theorem Holds.find? (h : Holds cache shelf) (key : κ) :
    shelf.find? key = (slot? cache.slots key).map (·.value) := by
  rw [← h.entries, Shelf.find?, List.find?_map, Option.map_map]
  rfl

theorem entries_without (slots : List (CacheSlot κ ν)) (key : κ) :
    (ExpiringCache.without slots key).map (fun slot => (slot.key, slot.value)) =
      Shelf.without (slots.map fun slot => (slot.key, slot.value)) key := by
  simp only [ExpiringCache.without, Shelf.without, List.filter_map]
  rfl

theorem Holds.remove (h : Holds cache shelf) (key : κ) :
    Holds (cache.remove key) (shelf.without key) where
  entries := by rw [← h.entries, ← entries_without, ExpiringCache.remove]
  inStep := h.inStep.without key
  numbered := h.numbered
  roomy := Nat.le_trans (List.length_filter_le _ _) h.roomy
  swept := h.swept

theorem get_of_expiring (hkeeps : cache.keepsEntries = false) (key : κ) :
    cache.get key = (none, cache.remove key) := by
  unfold ExpiringCache.get
  cases hslot : slot? cache.slots key with
  | none =>
    have habsent : ExpiringCache.without cache.slots key = cache.slots := by
      rw [ExpiringCache.without, List.filter_eq_self]
      intro slot hmem
      simpa using List.find?_eq_none.1 hslot slot hmem
    simp only [ExpiringCache.remove, habsent]
  | some slot => simp only [hkeeps, Bool.false_eq_true, if_false, ExpiringCache.remove]

theorem get_of_keeping (hkeeps : cache.keepsEntries = true) (key : κ) :
    cache.get key = ((slot? cache.slots key).map (·.value), cache) := by
  unfold ExpiringCache.get
  cases slot? cache.slots key with
  | none => rfl
  | some slot => simp only [hkeeps, if_true, Option.map_some]

theorem Holds.get (h : Holds cache shelf) (key : κ) :
    (cache.get key).1 = (shelf.get cache.keepsEntries key).1 ∧
      Holds (cache.get key).2 (shelf.get cache.keepsEntries key).2 := by
  cases hkeeps : cache.keepsEntries with
  | true =>
    rw [get_of_keeping hkeeps, Shelf.get, if_pos rfl, h.find? key]
    exact ⟨rfl, h⟩
  | false =>
    rw [get_of_expiring hkeeps, Shelf.get, if_neg Bool.false_ne_true]
    exact ⟨rfl, h.remove key⟩

theorem insert_eq (cache : ExpiringCache κ ν) (key : κ) (value : ν) :
    cache.insert key value =
      let slots := ExpiringCache.without cache.slots key ++ [⟨key, value, cache.insertions⟩]
      let made :=
        ExpiringCache.evict cache.capacity (cache.order ++ [(key, cache.insertions)]) slots
      { cache with
        slots := made.2
        order := ExpiringCache.sweep cache.capacity made.2 made.1
        insertions := cache.insertions + 1 } :=
  rfl

theorem drop_excess {α : Type} {members : List α} (h : members.length ≤ capacity + 1) :
    members.drop (members.length - capacity) =
      if capacity < members.length then members.tail else members := by
  by_cases hlong : capacity < members.length
  · have hone : members.length - capacity = 1 := by omega
    rw [if_pos hlong, hone, List.drop_one]
  · have hnone : members.length - capacity = 0 := by omega
    rw [if_neg hlong, hnone, List.drop_zero]

theorem Holds.insert (h : Holds cache shelf) (key : κ) (value : ν) :
    Holds (cache.insert key value) (shelf.put cache.capacity key value) := by
  have habsent : ∀ slot ∈ ExpiringCache.without cache.slots key, slot.key ≠ key := by
    intro slot hslot
    simpa using (List.mem_filter.1 hslot).2
  have hinserted := (h.inStep.without key).append value habsent h.numbered
  obtain ⟨hdropped, hinStep, hsuffix⟩ := hinserted.evict cache.capacity
  have hentries : (ExpiringCache.without cache.slots key ++
      [CacheSlot.mk key value cache.insertions]).map (fun slot => (slot.key, slot.value)) =
        shelf.without key ++ [(key, value)] := by
    rw [List.map_append, entries_without, h.entries]
    rfl
  have hlength : (shelf.without key ++ [(key, value)]).length ≤ cache.capacity + 1 := by
    have hless : (shelf.without key).length ≤ shelf.length := List.length_filter_le _ _
    have hroomy : shelf.length ≤ cache.capacity := h.size ▸ h.roomy
    rw [List.length_append, List.length_singleton]
    omega
  have hroom : (ExpiringCache.evict cache.capacity (cache.order ++ [(key, cache.insertions)])
      (ExpiringCache.without cache.slots key ++
        [CacheSlot.mk key value cache.insertions])).2.length ≤ cache.capacity := by
    rw [hdropped, List.length_drop]
    omega
  rw [insert_eq]
  constructor
  case entries =>
    simp only
    rw [hdropped, List.map_drop, hentries, ← List.length_map, hentries, drop_excess hlength]
    rfl
  case inStep => exact hinStep.sweep _
  case roomy => exact hroom
  case swept => exact hinStep.length_sweep hroom
  case numbered =>
    intro place hplace
    show place.2 < cache.insertions + 1
    cases List.mem_append.1 (hsuffix.subset (mem_of_mem_sweep hplace)) with
    | inl hbefore => exact Nat.lt_succ_of_lt (h.numbered place hbefore)
    | inr hlast =>
      cases List.mem_singleton.1 hlast
      exact Nat.lt_succ_self _

/-! ## Any use of a cache -/

theorem Holds.next (h : Holds cache shelf) (use : CacheUse κ ν) :
    Holds (cache.next use) (shelf.next cache.capacity cache.keepsEntries use) := by
  cases use with
  | get key => exact (h.get key).2
  | insert key value => exact h.insert key value
  | remove key => exact h.remove key
  | clear => exact holds_nil rfl rfl

/-- Neither the room nor the lifetime of entries ever changes. -/
theorem next_bounds (cache : ExpiringCache κ ν) (use : CacheUse κ ν) :
    (cache.next use).capacity = cache.capacity ∧ (cache.next use).lifetime = cache.lifetime := by
  cases use with
  | get key =>
    cases hkeeps : cache.keepsEntries with
    | true => simp only [next, get_of_keeping hkeeps, and_self]
    | false => simp only [next, get_of_expiring hkeeps, remove, and_self]
  | insert key value => exact ⟨rfl, rfl⟩
  | remove key => exact ⟨rfl, rfl⟩
  | clear => exact ⟨rfl, rfl⟩

theorem next_insertions (cache : ExpiringCache κ ν) (use : CacheUse κ ν) :
    (cache.next use).insertions ≤ cache.insertions + 1 := by
  cases use with
  | get key =>
    cases hkeeps : cache.keepsEntries with
    | true => simp only [next, get_of_keeping hkeeps, Nat.le_add_right]
    | false => simp only [next, get_of_expiring hkeeps, remove, Nat.le_add_right]
  | insert key value => exact Nat.le_refl _
  | remove key => exact Nat.le_succ _
  | clear => exact Nat.le_succ _

theorem Holds.after (h : Holds cache shelf) (uses : List (CacheUse κ ν)) :
    Holds (cache.after uses)
        (uses.foldl (Shelf.next cache.capacity cache.keepsEntries) shelf) ∧
      (cache.after uses).capacity = cache.capacity ∧
      (cache.after uses).lifetime = cache.lifetime := by
  induction uses generalizing cache shelf with
  | nil => exact ⟨h, rfl, rfl⟩
  | cons use uses ih =>
    obtain ⟨hcapacity, hlifetime⟩ := next_bounds cache use
    have hkeeps : (cache.next use).keepsEntries = cache.keepsEntries := by
      rw [keepsEntries, hlifetime, keepsEntries]
    have hrest := ih (h.next use)
    rwa [hcapacity, hlifetime, hkeeps] at hrest

/-! ## Checked arithmetic -/

/-- Checked arithmetic does not overflow below these bounds. -/
theorem afterChecked?_eq_some {uses : List (CacheUse κ ν)}
    (hcapacity : 2 * cache.capacity < UInt64.size)
    (hinsertions : cache.insertions + uses.length < UInt64.size) :
    cache.afterChecked? uses = some (cache.after uses) := by
  induction uses generalizing cache with
  | nil => rfl
  | cons use uses ih =>
    have hnumber := cache.next_insertions use
    rw [List.length_cons] at hinsertions
    have hnext : cache.nextChecked? use = some (cache.next use) := by
      cases use with
      | insert key value => exact if_pos ⟨hcapacity, by omega⟩
      | _ => rfl
    rw [afterChecked?, List.foldlM_cons, hnext]
    exact ih ((next_bounds cache use).1 ▸ hcapacity) (by omega)

/-- From a capacity of `2 ^ 63` on, checked arithmetic overflows at the first insertion. -/
theorem afterChecked?_eq_none {uses : List (CacheUse κ ν)} {key : κ} {value : ν}
    (hcapacity : UInt64.size ≤ 2 * cache.capacity) (hinsert : .insert key value ∈ uses) :
    cache.afterChecked? uses = none := by
  induction uses generalizing cache with
  | nil => cases hinsert
  | cons use uses ih =>
    have hnext : UInt64.size ≤ 2 * (cache.next use).capacity := by rwa [(next_bounds cache use).1]
    rw [afterChecked?, List.foldlM_cons]
    cases use with
    | insert other found =>
      have hstops : cache.nextChecked? (.insert other found) = none :=
        if_neg fun hwords => absurd hwords.1 (Nat.not_lt.2 hcapacity)
      rw [hstops]
      rfl
    | get other | remove other | clear =>
      exact ih hnext ((List.mem_cons.1 hinsert).resolve_left nofun)

/-- After any uses of a cache of any capacity, with entries that keep or that expire at once, it
agrees with a shelf: look-ups have the same results, and the entries are those of the shelf, under
distinct keys. There are never more than the capacity, and the queue is never longer than twice
that. A key just inserted is present. Where entries expire at once a look-up finds none and drops
the key. This includes capacities whose double wraps. With checked arithmetic the cache is the same
for capacities below `2 ^ 63`; from there on its first insertion overflows. -/
theorem after_eq_shelf (capacity : Nat) (lifetime : UInt64) (uses : List (CacheUse κ ν)) :
    let start : ExpiringCache κ ν := new capacity lifetime
    let cache := start.after uses
    let shelf := Shelf.after (max capacity 1) (decide (0 < lifetime)) uses
    (∀ key, (cache.get key).1 = (shelf.get (decide (0 < lifetime)) key).1) ∧
      cache.size = shelf.length ∧ cache.isEmpty = shelf.isEmpty ∧
      shelf.Pairwise (·.1 ≠ ·.1) ∧
      cache.size ≤ max capacity 1 ∧ cache.order.length ≤ 2 * max capacity 1 ∧
      (∀ key value, (slot? (cache.insert key value).slots key).map (·.value) = some value) ∧
      (lifetime = 0 → ∀ key, cache.get key = (none, cache.remove key)) ∧
      (2 * capacity < UInt64.size → uses.length < UInt64.size →
        start.afterChecked? uses = some cache) ∧
      (UInt64.size ≤ 2 * capacity → ∀ key value, .insert key value ∈ uses →
        start.afterChecked? uses = none) := by
  intro start cache shelf
  obtain ⟨hholds, hcapacity, hlifetime⟩ :=
    (holds_nil rfl rfl : Holds (new capacity lifetime : ExpiringCache κ ν) []).after uses
  have h : Holds cache shelf := hholds
  have hkeeps : cache.keepsEntries = decide (0 < lifetime) := congrArg (decide <| 0 < ·) hlifetime
  have hcapacity : cache.capacity = max capacity 1 := hcapacity
  have hstart : start.capacity = max capacity 1 := rfl
  refine ⟨?found, h.size, ?empty, h.distinct, hcapacity ▸ h.roomy, hcapacity ▸ h.swept, ?inserted,
    ?expired, ?checked, ?stopped⟩
  case found =>
    intro key
    rw [← hkeeps]
    exact (h.get key).1
  case empty =>
    rw [isEmpty, size, h.size]
    cases shelf <;> simp
  case inserted =>
    intro key value
    rw [← (h.insert key value).find? key, hcapacity]
    exact Shelf.find?_put_self (Nat.le_max_right _ _) shelf key value
  case expired =>
    intro hzero key
    exact get_of_expiring (by rw [hkeeps, hzero]; rfl) key
  case checked =>
    intro hword hlength
    have hnumber : start.insertions = 0 := rfl
    have hsize : UInt64.size = 18446744073709551616 := rfl
    exact afterChecked?_eq_some (by omega) (by omega)
  case stopped =>
    intro hword key value hinsert
    exact afterChecked?_eq_none (by omega) hinsert

/-- A key that is put there again moves to the end, and the one after it falls off first. -/
example :
    Shelf.after 2 true [.insert 1 "a", .insert 2 "b", .insert 1 "c", .insert 3 "d"] =
      [(1, "c"), (3, "d")] := by
  decide

end ExpiringCache

end

end Mvcc
