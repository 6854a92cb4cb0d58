import Mathlib.Data.List.Sort
import Mvcc.Data.SortedMap

/-!
# Sorted maps

Every operation on a sorted map is characterised by look-ups, and look-ups determine the map.
-/

namespace Mvcc.SortedMap

variable {κ ν : Type} [LT κ]

/-! ## Look-ups and entries -/

section Lookup

variable [DecidableEq κ]

@[simp] theorem get?_empty (key : κ) : (empty : SortedMap κ ν).get? key = none := rfl

theorem lookup_entries [BEq κ] [LawfulBEq κ] (map : SortedMap κ ν) (key : κ) :
    map.entries.lookup key = map.get? key := by
  unfold get?
  induction map.entries with
  | nil => rfl
  | cons entry rest ih =>
    obtain ⟨other, value⟩ := entry
    by_cases h : other = key
    · subst h
      simp
    · have hne : (key == other) = false := by simpa using fun heq => h heq.symm
      simp [List.lookup_cons, hne, h, ih]

theorem get?_filterKeys (map : SortedMap κ ν) (keep : κ → Bool) (key : κ) :
    (map.filterKeys keep).get? key = if keep key then map.get? key else none := by
  simp only [get?, filterKeys, List.find?_filter]
  by_cases h : keep key
  · rw [if_pos h]
    congr 2
    funext entry
    by_cases he : entry.1 = key
    · simp [he, h]
    · simp [he]
  · rw [if_neg h, Option.map_eq_none_iff, List.find?_eq_none]
    intro entry _ hentry
    simp only [decide_eq_true_eq] at hentry
    exact h (hentry.2 ▸ hentry.1)

theorem get?_erase (map : SortedMap κ ν) (key other : κ) :
    (map.erase key).get? other = if other = key then none else map.get? other := by
  rw [erase, get?_filterKeys]
  by_cases h : other = key <;> simp [h]

theorem isEmpty_iff {map : SortedMap κ ν} : map.isEmpty ↔ ∀ key, map.get? key = none := by
  constructor
  · intro h key
    rw [isEmpty, List.isEmpty_iff] at h
    simp [get?, h]
  · intro h
    rw [isEmpty, List.isEmpty_iff]
    cases hentries : map.entries with
    | nil => rfl
    | cons entry rest =>
      have hget := h entry.1
      simp [get?, hentries] at hget

omit [DecidableEq κ] in
theorem eq_empty_of_isEmpty {map : SortedMap κ ν} (h : map.isEmpty = true) : map = .empty :=
  ext_entries (List.isEmpty_iff.1 h)

theorem isEmpty_of_get?_eq_some {map : SortedMap κ ν} {key : κ} {value : ν}
    (h : map.get? key = some value) : map.isEmpty = false := by
  cases hempty : map.isEmpty with
  | false => rfl
  | true => simp [isEmpty_iff.1 hempty key] at h

end Lookup

theorem lookup_eq_some_iff_mem {α β : Type} [BEq α] [LawfulBEq α] {pairs : List (α × β)}
    (h : (pairs.map (·.1)).Nodup) {key : α} {value : β} :
    pairs.lookup key = some value ↔ (key, value) ∈ pairs := by
  induction pairs with
  | nil => simp
  | cons first rest ih =>
    obtain ⟨other, found⟩ := first
    obtain ⟨hfirst, hrest⟩ := List.nodup_cons.1 h
    rw [List.lookup_cons, List.mem_cons, Prod.mk.injEq]
    by_cases hkey : key = other
    · subst hkey
      have hnot : (key, value) ∉ rest := fun hmem => hfirst (List.mem_map.2 ⟨_, hmem, rfl⟩)
      simp [hnot, eq_comm]
    · have hne : (key == other) = false := by simpa using hkey
      simp [hkey, hne, ih hrest]

/-! ## Fronts of a list -/

section Front

variable {α : Type} {list : List α}

/-- For a test that is monotone along the list, the elements that pass are a prefix. -/
theorem takeWhile_eq_filter {keep : α → Bool}
    (h : list.Pairwise fun earlier later => keep later = true → keep earlier = true) :
    list.takeWhile keep = list.filter keep := by
  induction list with
  | nil => rfl
  | cons first rest ih =>
    obtain ⟨hfirst, hrest⟩ := List.pairwise_cons.1 h
    by_cases hkeep : keep first = true
    · rw [List.takeWhile_cons_of_pos hkeep, List.filter_cons_of_pos hkeep, ih hrest]
    · have hnone : rest.filter keep = [] :=
        List.filter_eq_nil_iff.2 fun later hlater hkept => hkeep (hfirst later hlater hkept)
      rw [List.takeWhile_cons_of_neg hkeep, List.filter_cons_of_neg hkeep, hnone]

theorem dropWhile_eq_filter {skip : α → Bool}
    (h : list.Pairwise fun earlier later => skip later = true → skip earlier = true) :
    list.dropWhile skip = list.filter fun item => !skip item := by
  induction list with
  | nil => rfl
  | cons first rest ih =>
    obtain ⟨hfirst, hrest⟩ := List.pairwise_cons.1 h
    by_cases hskip : skip first = true
    · rw [List.dropWhile_cons_of_pos hskip, List.filter_cons_of_neg (by simp [hskip]), ih hrest]
    · have hall : rest.filter (fun item => !skip item) = rest :=
        List.filter_eq_self.2 fun later hlater => by
          simpa using fun hskipped => hskip (hfirst later hlater hskipped)
      rw [List.dropWhile_cons_of_neg hskip, List.filter_cons_of_pos (by simp [hskip]), hall]

end Front

/-! ## Entries by key -/

section Entries

variable [DecidableEq κ] [LE κ] [Std.LawfulOrderLT κ]

omit [DecidableEq κ] in
theorem eq_of_mem_entries {map : SortedMap κ ν} {a b : κ × ν} (ha : a ∈ map.entries)
    (hb : b ∈ map.entries) (hkey : a.1 = b.1) : a = b := by
  obtain ⟨entries, hascending⟩ := map
  induction entries with
  | nil => simp at ha
  | cons first rest ih =>
    obtain ⟨hfirst, hrest⟩ := List.pairwise_cons.1 hascending
    rcases List.mem_cons.1 ha with hafirst | harest <;>
      rcases List.mem_cons.1 hb with hbfirst | hbrest
    · exact hafirst.trans hbfirst.symm
    · exact absurd (hkey ▸ hafirst ▸ hfirst b hbrest) Std.lt_irrefl
    · exact absurd (hkey ▸ hbfirst ▸ hfirst a harest) Std.lt_irrefl
    · exact ih hrest harest hbrest

theorem mem_entries_iff {map : SortedMap κ ν} {key : κ} {value : ν} :
    (key, value) ∈ map.entries ↔ map.get? key = some value := by
  constructor
  · intro h
    cases hfind : map.entries.find? (·.1 = key) with
    | none =>
      have hne := List.find?_eq_none.1 hfind (key, value) h
      simp at hne
    | some entry =>
      have hkey : entry.1 = key := by simpa using List.find?_some hfind
      have heq := eq_of_mem_entries (List.mem_of_find?_eq_some hfind) h hkey
      simp [get?, hfind, heq]
  · intro h
    obtain ⟨entry, hfind, rfl⟩ := Option.map_eq_some_iff.1 h
    have hkey : entry.1 = key := by simpa using List.find?_some hfind
    exact hkey ▸ List.mem_of_find?_eq_some hfind

theorem ext_get? [Std.IsPreorder κ] {a b : SortedMap κ ν} (h : ∀ key, a.get? key = b.get? key) :
    a = b := by
  have hirrefl : Std.Irrefl fun first second : κ × ν => first.1 < second.1 :=
    ⟨fun _ => Std.lt_irrefl⟩
  have hantisymm : Std.Antisymm fun first second : κ × ν => first.1 < second.1 :=
    ⟨fun _ _ hlt hgt => absurd (Std.lt_trans hlt hgt) Std.lt_irrefl⟩
  refine ext_entries (a.ascending.eq_of_mem_iff b.ascending fun entry => ?_)
  rw [mem_entries_iff, mem_entries_iff, h]

omit [DecidableEq κ] in
theorem nodup_keys (map : SortedMap κ ν) : (map.entries.map (·.1)).Nodup := by
  rw [List.nodup_iff_pairwise_ne, List.pairwise_map]
  refine map.ascending.imp fun {a b} hlt heq => ?_
  rw [heq] at hlt
  exact Std.lt_irrefl hlt

/-- Looking a key up does not depend on the order of the entries. -/
theorem lookup_of_perm [BEq κ] [LawfulBEq κ] {map : SortedMap κ ν} {pairs : List (κ × ν)}
    (h : pairs.Perm map.entries) (key : κ) : pairs.lookup key = map.get? key := by
  have hkeys : (pairs.map (·.1)).Nodup := (h.map (·.1)).nodup_iff.2 map.nodup_keys
  apply Option.ext
  intro value
  rw [lookup_eq_some_iff_mem hkeys, h.mem_iff, mem_entries_iff]

end Entries

/-! ## Insertion -/

section Insert

variable [DecidableEq κ] [LE κ] [Std.IsLinearOrder κ] [Std.LawfulOrderLT κ] [DecidableLT κ]

theorem insertEntry_of_mem {key : κ} (value : ν) {entries : List (κ × ν)}
    (hascending : entries.Pairwise (·.1 < ·.1)) (h : ∃ entry ∈ entries, entry.1 = key) :
    insertEntry key value entries =
      entries.map fun entry => if entry.1 = key then (key, value) else entry := by
  induction entries with
  | nil => simp at h
  | cons first rest ih =>
    obtain ⟨hfirst, hrest⟩ := List.pairwise_cons.1 hascending
    unfold insertEntry
    by_cases hkey : first.1 = key
    · have hothers : ∀ entry ∈ rest, entry.1 ≠ key := by
        intro entry hentry hsame
        exact Std.lt_irrefl ((hsame.trans hkey.symm) ▸ hfirst entry hentry)
      have hkept :
          rest.map (fun entry => if entry.1 = key then (key, value) else entry) = rest := by
        conv => rhs; rw [← List.map_id rest]
        refine List.map_congr_left fun entry hentry => ?_
        rw [if_neg (hothers entry hentry), id]
      simp [hkey, hkept, Std.lt_irrefl]
    · have hmem : ∃ entry ∈ rest, entry.1 = key := by simpa [hkey] using h
      obtain ⟨entry, hentry, hsame⟩ := hmem
      have hlt : first.1 < key := hsame ▸ hfirst entry hentry
      have hnot : ¬ key < first.1 := fun hgt => Std.lt_irrefl (Std.lt_trans hlt hgt)
      simp [hkey, hlt, hnot, ih hrest ⟨entry, hentry, hsame⟩]

theorem find?_insertEntry (key other : κ) (value : ν) (entries : List (κ × ν)) :
    (insertEntry key value entries).find? (·.1 = other) =
      if other = key then some (key, value) else entries.find? (·.1 = other) := by
  induction entries with
  | nil =>
    by_cases h : other = key
    · simp [insertEntry, h]
    · simp [insertEntry, h, Ne.symm h]
  | cons first rest ih =>
    unfold insertEntry
    split
    · by_cases h : other = key
      · simp [h]
      · simp [h, Ne.symm h]
    · split
      · rename_i hgt
        rw [List.find?_cons, ih]
        by_cases h : other = key
        · have hne : first.1 ≠ key := fun heq => Std.lt_irrefl (heq ▸ hgt)
          simp [h, hne]
        · simp [h, List.find?_cons]
      · rename_i hnlt hngt
        have heq : first.1 = key := by
          rcases Std.lt_trichotomy key first.1 with h | h | h
          · exact absurd h hnlt
          · exact h.symm
          · exact absurd h hngt
        by_cases h : other = key
        · simp [h]
        · simp [h, Ne.symm h, heq]

theorem get?_insert (map : SortedMap κ ν) (key other : κ) (value : ν) :
    (map.insert key value).get? other = if other = key then some value else map.get? other := by
  simp only [get?, insert, find?_insertEntry]
  by_cases h : other = key <;> simp [h]

@[simp] theorem get?_insert_self (map : SortedMap κ ν) (key : κ) (value : ν) :
    (map.insert key value).get? key = some value := by
  simp [get?_insert]

/-- The order of two insertions matters only where they put different values under one key. -/
theorem insert_comm {map : SortedMap κ ν} {key key' : κ} {value value' : ν}
    (h : key = key' → value = value') :
    (map.insert key value).insert key' value' = (map.insert key' value').insert key value := by
  refine ext_get? fun other => ?_
  simp only [get?_insert]
  by_cases hother : other = key
  · by_cases hother' : other = key'
    · rw [if_pos hother', if_pos hother, h (hother.symm.trans hother')]
    · simp [hother']
  · simp [hother]

theorem insert_of_get? {map : SortedMap κ ν} {key : κ} {value : ν}
    (h : map.get? key = some value) : map.insert key value = map := by
  refine ext_get? fun other => ?_
  rw [get?_insert]
  split
  · rename_i hother
    rw [hother, h]
  · rfl

@[simp] theorem isEmpty_insert (map : SortedMap κ ν) (key : κ) (value : ν) :
    (map.insert key value).isEmpty = false :=
  isEmpty_of_get?_eq_some (get?_insert_self map key value)

/-- Of two pairs with one key the later counts. -/
theorem get?_ofList (pairs : List (κ × ν)) (key : κ) :
    (ofList pairs).get? key = pairs.reverse.lookup key := by
  induction hpairs : pairs.reverse generalizing pairs with
  | nil =>
    rw [List.reverse_eq_nil_iff] at hpairs
    subst hpairs
    rfl
  | cons last others ih =>
    have hsplit : pairs = others.reverse ++ [last] := by
      rw [← List.reverse_cons, ← hpairs, List.reverse_reverse]
    have hothers := ih others.reverse (List.reverse_reverse others)
    rw [ofList] at hothers
    rw [hsplit, ofList, List.foldl_append, List.foldl_cons, List.foldl_nil, get?_insert, hothers,
      List.lookup_cons]
    by_cases hkey : key = last.1
    · simp [hkey]
    · have hne : (key == last.1) = false := by simpa using hkey
      simp [hkey, hne]

end Insert

/-! ## Sets from their listings -/

section Listing

variable [LE κ] [Std.IsLinearOrder κ] [Std.LawfulOrderLT κ] [DecidableLT κ]

omit [LE κ] [Std.IsLinearOrder κ] [Std.LawfulOrderLT κ] in
theorem insertEntry_of_forall_lt {key : κ} {value : ν} {entries : List (κ × ν)}
    (h : ∀ entry ∈ entries, key < entry.1) :
    insertEntry key value entries = (key, value) :: entries := by
  cases entries with
  | nil => rfl
  | cons first rest => simp [insertEntry, h first (by simp)]

theorem entries_foldr_add (members : List κ) (h : members.Pairwise (· < ·)) :
    (members.foldr (fun member (set : SortedSet κ) => SortedSet.add set member) empty).entries =
      members.map fun member => (member, ()) := by
  induction members with
  | nil => rfl
  | cons first rest ih =>
    obtain ⟨hfirst, hrest⟩ := List.pairwise_cons.1 h
    have hlast : ∀ entry ∈ rest.map fun member => (member, ()), first < entry.1 := by
      intro entry hentry
      obtain ⟨member, hmember, rfl⟩ := List.mem_map.1 hentry
      exact hfirst member hmember
    simp only [List.foldr_cons, SortedSet.add, insert] at ih ⊢
    rw [ih hrest, insertEntry_of_forall_lt hlast]
    rfl

theorem ofList_keys (set : SortedSet κ) : SortedSet.ofList set.keys = set := by
  have hkeys : set.keys.Pairwise (· < ·) := List.pairwise_map.2 set.ascending
  have hsorted : set.keys.mergeSort (fun a b => !decide (b < a)) = set.keys := by
    refine List.mergeSort_of_pairwise (hkeys.imp fun {a b} hab => ?_)
    simpa using Std.not_gt_of_lt hab
  refine ext_entries ?_
  rw [SortedSet.ofList, hsorted, entries_foldr_add _ hkeys, keys, List.map_map]
  exact List.map_id' _

/-! ## Members -/

variable [DecidableEq κ]

theorem contains_add (set : SortedSet κ) (member : κ) :
    (SortedSet.add set member).contains member = true := by
  rw [contains, SortedSet.add, get?_insert_self, Option.isSome_some]

theorem add_of_contains {set : SortedSet κ} {member : κ} (h : set.contains member = true) :
    SortedSet.add set member = set := by
  obtain ⟨_, hfound⟩ := Option.isSome_iff_exists.1 h
  have hmem : (member, ()) ∈ set.entries := mem_entries_iff.2 hfound
  have hreplaced := insertEntry_of_mem () set.ascending ⟨_, hmem, rfl⟩
  have hkept : set.entries.map (fun entry => if entry.1 = member then (member, ()) else entry) =
      set.entries := by
    conv => rhs; rw [← List.map_id set.entries]
    refine List.map_congr_left fun entry _ => ?_
    split
    · rename_i hkey
      exact Prod.ext hkey.symm rfl
    · rfl
  exact ext_entries (hreplaced.trans hkept)

end Listing

end Mvcc.SortedMap
