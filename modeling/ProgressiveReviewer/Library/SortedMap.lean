import Mathlib.Order.Lattice
import Mathlib.Data.List.Lookmap
import Mathlib.Order.Defs.LinearOrder
import Mathlib.Order.Basic

/-! Finite maps kept as their entries in the order of the keys. -/

namespace ProgressiveReviewer.Library

variable {κ ν : Type} [LinearOrder κ]

/-- No key twice, each before the larger ones. -/
structure SortedMap (κ ν : Type) [LinearOrder κ] where
  entries : List (κ × ν)
  sorted : entries.Pairwise fun a b => a.1 < b.1

instance [DecidableEq ν] : DecidableEq (SortedMap κ ν) := fun m m' =>
  decidable_of_iff (m.entries = m'.entries)
    ⟨fun h => by cases m; cases m'; simp_all, fun h => by rw [h]⟩

namespace SortedMap

/-- Put an entry in its place, over the one of the same key. -/
def insertEntry (key : κ) (value : ν) : List (κ × ν) → List (κ × ν)
  | [] => [(key, value)]
  | entry :: rest =>
    if key < entry.1 then (key, value) :: entry :: rest
    else if key = entry.1 then (key, value) :: rest
    else entry :: insertEntry key value rest

theorem mem_insertEntry {key : κ} {value : ν} {entry : κ × ν} {entries : List (κ × ν)}
    (mem : entry ∈ insertEntry key value entries) : entry = (key, value) ∨ entry ∈ entries := by
  induction entries with
  | nil => exact .inl (by simpa [insertEntry] using mem)
  | cons first rest ih =>
    rw [insertEntry] at mem
    split_ifs at mem with before same
    · simpa using mem
    · rcases List.mem_cons.mp mem with rfl | mem
      · exact .inl rfl
      · exact .inr (List.mem_cons_of_mem _ mem)
    · rcases List.mem_cons.mp mem with rfl | mem
      · exact .inr List.mem_cons_self
      · exact (ih mem).imp_right (List.mem_cons_of_mem _)

theorem sorted_insertEntry (key : κ) (value : ν) {entries : List (κ × ν)}
    (sorted : entries.Pairwise fun a b => a.1 < b.1) :
    (insertEntry key value entries).Pairwise fun a b => a.1 < b.1 := by
  induction entries with
  | nil => exact List.pairwise_singleton _ _
  | cons first rest ih =>
    have below := List.pairwise_cons.mp sorted
    rw [insertEntry]
    split_ifs with before same
    · refine List.pairwise_cons.mpr ⟨fun entry mem => ?_, sorted⟩
      rcases List.mem_cons.mp mem with rfl | mem
      · exact before
      · exact before.trans (below.1 entry mem)
    · exact List.pairwise_cons.mpr ⟨fun entry mem => same ▸ below.1 entry mem, below.2⟩
    · refine List.pairwise_cons.mpr ⟨fun entry mem => ?_, ih below.2⟩
      rcases mem_insertEntry mem with rfl | mem
      · exact lt_of_le_of_ne (not_lt.mp before) (Ne.symm same)
      · exact below.1 entry mem

def empty : SortedMap κ ν := ⟨[], List.Pairwise.nil⟩

def lookup (map : SortedMap κ ν) (key : κ) : Option ν :=
  (map.entries.find? fun entry => entry.1 = key).map Prod.snd

def contains (map : SortedMap κ ν) (key : κ) : Bool := map.entries.any fun entry => entry.1 = key

def keys (map : SortedMap κ ν) : List κ := map.entries.map Prod.fst

def values (map : SortedMap κ ν) : List ν := map.entries.map Prod.snd

def isEmpty (map : SortedMap κ ν) : Bool := map.entries.isEmpty

def insert (map : SortedMap κ ν) (key : κ) (value : ν) : SortedMap κ ν :=
  ⟨insertEntry key value map.entries, sorted_insertEntry key value map.sorted⟩

/-- Keep the entries that pass. -/
def retain (map : SortedMap κ ν) (keep : κ → ν → Bool) : SortedMap κ ν :=
  ⟨map.entries.filter fun entry => keep entry.1 entry.2, map.sorted.filter _⟩

def erase (map : SortedMap κ ν) (key : κ) : SortedMap κ ν := map.retain fun k _ => k ≠ key

/-- Change the value of one key, when the map has it. -/
def modify (map : SortedMap κ ν) (key : κ) (change : ν → ν) : SortedMap κ ν :=
  match map.lookup key with
  | some value => map.insert key (change value)
  | none => map

/-- Insert every entry of another map. -/
def extend (map other : SortedMap κ ν) : SortedMap κ ν :=
  other.entries.foldl (fun m entry => m.insert entry.1 entry.2) map

variable {map : SortedMap κ ν} {key other : κ} {value : ν}

theorem find?_insertEntry (entries : List (κ × ν)) :
    (insertEntry key value entries).find? (fun entry => entry.1 = other) =
      if key = other then some (key, value) else entries.find? fun entry => entry.1 = other := by
  induction entries with
  | nil => by_cases same : key = other <;> simp [insertEntry, same]
  | cons first rest ih =>
    rw [insertEntry]
    by_cases same : key = other
    · subst same
      rw [if_pos rfl] at ih ⊢
      split_ifs with before equal
      · simp
      · simp
      · rw [List.find?_cons_of_neg (by simpa using Ne.symm equal), ih]
    · split_ifs with before equal
      · simp [same]
      · rw [List.find?_cons_of_neg (by simpa using same),
          List.find?_cons_of_neg (by simpa using equal ▸ same)]
      · rw [List.find?_cons, List.find?_cons, ih, if_neg same]

@[simp] theorem lookup_empty : (empty : SortedMap κ ν).lookup key = none := rfl

theorem lookup_insert :
    (map.insert key value).lookup other = if key = other then some value else map.lookup other := by
  simp only [lookup, insert, find?_insertEntry]
  split_ifs <;> rfl

@[simp] theorem lookup_insert_self : (map.insert key value).lookup key = some value := by
  simp [lookup_insert]

theorem lookup_modify {change : ν → ν} :
    (map.modify key change).lookup other =
      if key = other then (map.lookup key).map change else map.lookup other := by
  unfold modify
  split
  · next found => rw [lookup_insert, found]; rfl
  · next missing =>
    split_ifs with same
    · rw [← same, missing]; rfl
    · rfl

theorem nodup_keys : map.keys.Nodup :=
  List.pairwise_map.mpr (map.sorted.imp fun before => before.ne)

theorem eq_of_key_eq {entries : List (κ × ν)} (sorted : entries.Pairwise fun a b => a.1 < b.1)
    {a b : κ × ν} (ha : a ∈ entries) (hb : b ∈ entries) (same : a.1 = b.1) : a = b := by
  induction entries with
  | nil => cases ha
  | cons first rest ih =>
    have below := List.pairwise_cons.mp sorted
    rcases List.mem_cons.mp ha with hfirst | ha <;> rcases List.mem_cons.mp hb with hsecond | hb
    · rw [hfirst, hsecond]
    · exact absurd (hfirst ▸ same) (below.1 b hb).ne
    · exact absurd (hsecond ▸ same) (below.1 a ha).ne'
    · exact ih below.2 ha hb

theorem lookup_eq_some : map.lookup key = some value ↔ (key, value) ∈ map.entries := by
  constructor
  · intro found
    obtain ⟨entry, first, rfl⟩ := Option.map_eq_some_iff.mp found
    have same : entry.1 = key := by simpa using List.find?_some first
    exact same ▸ List.mem_of_find?_eq_some first
  · intro mem
    have some : (map.entries.find? fun entry => entry.1 = key).isSome :=
      List.find?_isSome.mpr ⟨_, mem, by simp⟩
    obtain ⟨entry, first⟩ := Option.isSome_iff_exists.mp some
    have same : entry.1 = key := by simpa using List.find?_some first
    have unique : entry = (key, value) :=
      eq_of_key_eq map.sorted (List.mem_of_find?_eq_some first) mem same
    rw [lookup, first, unique]
    rfl

/-- Putting back what is there changes nothing. -/
theorem insert_lookup (held : map.lookup key = some value) : map.insert key value = map := by
  have put : ∀ {entries : List (κ × ν)}, entries.Pairwise (fun a b => a.1 < b.1) →
      (key, value) ∈ entries → insertEntry key value entries = entries := by
    intro entries sorted mem
    induction entries with
    | nil => cases mem
    | cons first rest ih =>
      obtain ⟨below, sorted⟩ := List.pairwise_cons.mp sorted
      rw [insertEntry]
      rcases List.mem_cons.mp mem with rfl | mem
      · rw [if_neg (lt_irrefl _), if_pos rfl]
      · have after := below _ mem
        rw [if_neg after.not_gt, if_neg after.ne', ih sorted mem]
  cases map with
  | mk entries sorted =>
    simp only [insert, put sorted (lookup_eq_some.mp held)]

theorem lookup_isSome : (map.lookup key).isSome = map.contains key := by
  rw [lookup, contains, Option.isSome_map, Bool.eq_iff_iff, List.find?_isSome, List.any_eq_true]

theorem contains_iff : map.contains key = true ↔ ∃ value, map.lookup key = some value := by
  rw [← lookup_isSome, Option.isSome_iff_exists]

theorem contains_insert :
    (map.insert key value).contains other = true ↔ key = other ∨ map.contains other = true := by
  simp only [contains_iff, lookup_insert]
  split_ifs with same <;> simp [same]

theorem contains_modify {change : ν → ν} :
    (map.modify key change).contains other = map.contains other := by
  rw [← lookup_isSome, ← lookup_isSome, lookup_modify]
  split_ifs with same
  · rw [same, Option.isSome_map]
  · rfl

theorem lookup_retain {keep : κ → ν → Bool} :
    (map.retain keep).lookup key = (map.lookup key).filter (keep key) := by
  ext value
  rw [lookup_eq_some, retain, List.mem_filter, ← lookup_eq_some, Option.filter_eq_some_iff]

theorem lookup_erase :
    (map.erase key).lookup other = if key = other then none else map.lookup other := by
  rw [erase, lookup_retain]
  split_ifs with same
  · simp [same]
  · cases map.lookup other <;> simp [Option.filter, Ne.symm same]

theorem mem_values : value ∈ map.values ↔ ∃ key, map.lookup key = some value := by
  simp only [values, List.mem_map, lookup_eq_some]
  exact ⟨fun ⟨entry, mem, same⟩ => ⟨entry.1, same ▸ mem⟩, fun ⟨key, mem⟩ => ⟨_, mem, rfl⟩⟩

theorem isEmpty_iff : map.isEmpty = true ↔ ∀ key, map.lookup key = none := by
  rw [isEmpty, List.isEmpty_iff]
  constructor
  · intro none key
    rw [lookup, none]; rfl
  · intro none
    refine List.eq_nil_iff_forall_not_mem.mpr fun entry mem => ?_
    exact absurd (lookup_eq_some.mpr mem) (by simp [none])

instance {P : κ → ν → Prop} [∀ key value, Decidable (P key value)] :
    Decidable (∀ key value, map.lookup key = some value → P key value) :=
  decidable_of_iff (∀ entry ∈ map.entries, P entry.1 entry.2)
    ⟨fun all key value found => all (key, value) (lookup_eq_some.mp found),
      fun all entry mem => all entry.1 entry.2 (lookup_eq_some.mpr mem)⟩

end SortedMap

/-- A property of the value there is, if any. -/
instance decidableForallSome {α : Type*} {o : Option α} {P : α → Prop} [∀ a, Decidable (P a)] :
    Decidable (∀ a, o = some a → P a) :=
  match o with
  | none => .isTrue nofun
  | some a => decidable_of_iff (P a) ⟨fun holds _ same => Option.some.inj same ▸ holds, fun all => all a rfl⟩

instance decidableExistsSome {α : Type*} {o : Option α} {P : α → Prop} [∀ a, Decidable (P a)] :
    Decidable (∃ a, o = some a ∧ P a) :=
  match o with
  | none => .isFalse fun ⟨_, absent, _⟩ => nomatch absent
  | some a => decidable_of_iff (P a)
    ⟨fun holds => ⟨a, rfl, holds⟩, fun ⟨_, same, holds⟩ => Option.some.inj same ▸ holds⟩

end ProgressiveReviewer.Library
