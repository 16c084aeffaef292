import Mathlib.Data.List.Nodup
import Mathlib.Data.List.SplitBy
import Mathlib.Data.List.Basic
import Mathlib.Data.List.Chain

/-! Lists that are sorted by a key or split where a relation fails. Only the keys, and only the
relation, tell how. -/

namespace ProgressiveReviewer.Library

/-- Lists of the same elements, no two of one key, are sorted into one list. -/
theorem mergeSort_eq_of_perm {α κ : Type} [LE κ] [DecidableLE κ] [Std.IsLinearOrder κ] (key : α → κ)
    {l l' : List α} (same : l.Perm l') (apart : (l.map key).Nodup) :
    l.mergeSort (fun a b => key a ≤ key b) = l'.mergeSort fun a b => key a ≤ key b := by
  let before (a b : α) : Bool := key a ≤ key b
  have trans : ∀ a b c : α, before a b = true → before b c = true → before a c = true :=
    fun _ _ _ le le' => decide_eq_true (Std.le_trans (of_decide_eq_true le) (of_decide_eq_true le'))
  have total : ∀ a b : α, (before a b || before b a) = true := fun a b => by
    rw [Bool.or_eq_true, decide_eq_true_eq, decide_eq_true_eq]
    exact Std.le_total
  have sorted (l : List α) : (l.mergeSort before).Pairwise fun a b => before a b = true :=
    List.pairwise_mergeSort trans total l
  refine List.Perm.eq_of_pairwise (fun a b mem mem' le le' => ?_) (sorted l) (sorted l')
    ((List.mergeSort_perm l _).trans (same.trans (List.mergeSort_perm l' _).symm))
  have equal : key a = key b := Std.le_antisymm (of_decide_eq_true le) (of_decide_eq_true le')
  exact List.inj_on_of_nodup_map apart (List.mem_mergeSort.mp mem)
    (same.symm.subset (List.mem_mergeSort.mp mem')) equal

/-- A map that keeps the relation keeps where a list is split. -/
theorem splitBy_map {α : Type} {r : α → α → Bool} {f : α → α} (keeps : ∀ a b, r (f a) (f b) = r a b)
    (l : List α) : (l.map f).splitBy r = (l.splitBy r).map (List.map f) := by
  refine List.splitBy_eq_iff.mpr ⟨?_, fun mem => ?_, fun group mem => ?_, ?_⟩
  · rw [← List.map_flatten, List.flatten_splitBy]
  · obtain ⟨group, mem, empty⟩ := List.mem_map.mp mem
    exact List.ne_nil_of_mem_splitBy mem (List.map_eq_nil_iff.mp empty)
  · obtain ⟨piece, held, rfl⟩ := List.mem_map.mp mem
    rw [List.isChain_map]
    simpa only [keeps] using List.isChain_of_mem_splitBy held
  · rw [List.isChain_map]
    refine (List.isChain_getLast_head_splitBy r l).imp fun a b => ?_
    rintro ⟨filled, filled', ends⟩
    refine ⟨fun empty => filled (List.map_eq_nil_iff.mp empty),
      fun empty => filled' (List.map_eq_nil_iff.mp empty), ?_⟩
    rw [List.getLast_map, List.head_map, keeps, ends]

/-- Where a list is split does not depend on which of two like elements ends it. -/
theorem splitBy_concat {α : Type} [DecidableEq α] {r : α → α → Bool} {first : List α} {a b : α}
    (alike : (∀ x, r x b = r x a) ∧ (∀ x, r b x = r a x)) (new : a ∉ first) :
    ∃ groups group, (first ++ [a]).splitBy r = groups ++ [group ++ [a]] ∧
      (first ++ [b]).splitBy r = groups ++ [group ++ [b]] := by
  let f (x : α) : α := if x = a then b else x
  have keeps : ∀ x y, r (f x) (f y) = r x y := fun x y => by
    simp only [f]
    split_ifs with left right right <;> simp only [alike.1, alike.2, left, right]
  have fixed {xs : List α} (inside : xs ⊆ first) : xs.map f = xs := by
    conv_rhs => rw [← List.map_id xs]
    exact List.map_congr_left fun x mem => if_neg fun same : x = a => new (same ▸ inside mem)
  have parts := (List.dropLast_concat_getLast
    (List.splitBy_ne_nil (r := r).mpr (List.concat_ne_nil a first))).symm
  generalize ((first ++ [a]).splitBy r).dropLast = groups at parts
  generalize ((first ++ [a]).splitBy r).getLast _ = last at parts
  have filled : last ≠ [] := List.ne_nil_of_mem_splitBy (parts ▸ List.mem_append_right _ (.head _))
  rw [← List.dropLast_concat_getLast filled] at parts
  have whole := List.flatten_splitBy r (first ++ [a])
  rw [parts, List.flatten_append, List.flatten_singleton, ← List.append_assoc] at whole
  obtain ⟨inside, same⟩ := List.append_inj' whole rfl
  rw [List.singleton_inj.mp same] at parts
  refine ⟨groups, last.dropLast, parts, ?_⟩
  have mapped : (first ++ [a]).map f = first ++ [b] := by
    rw [List.map_append, fixed (List.Subset.refl _), List.map_singleton]
    exact congrArg (fun x => first ++ [x]) (if_pos rfl)
  rw [← mapped, splitBy_map keeps, parts, List.map_append, List.map_singleton, List.map_append,
    List.map_singleton, fixed (inside ▸ List.subset_append_right _ _)]
  congr 1
  · conv_rhs => rw [← List.map_id groups]
    refine List.map_congr_left fun group mem => fixed ?_
    exact inside ▸ fun x here => List.mem_append_left _ (List.mem_flatten_of_mem mem here)
  · exact congrArg (fun x => [last.dropLast ++ [x]]) (if_pos rfl)

end ProgressiveReviewer.Library

/-! Lists some of whose items are unfolded into parts of their own. -/

namespace ProgressiveReviewer.Library

variable {α β : Type*} {opens : α → Option (List α)} {base items : List α}

/-- Items kept from a list or unfolded. -/
inductive Unfolded (opens : α → Option (List α)) : List α → List α → Prop where
  | nil : Unfolded opens [] []
  | kept (item : α) {base items : List α} (rest : Unfolded opens base items) :
    Unfolded opens (item :: base) (item :: items)
  | opened {item : α} {part base items : List α} (opened : opens item = some part)
    (rest : Unfolded opens base items) : Unfolded opens (item :: base) (part ++ items)

theorem Unfolded.refl (base : List α) : Unfolded opens base base := by
  induction base with
  | nil => exact .nil
  | cons item base ih => exact .kept item ih

/-- What the parts of an item say together with it stays. -/
theorem Unfolded.flatMap_eq (f : α → List β) (unfolded : Unfolded opens base items)
    (same : ∀ item ∈ base, ∀ part, opens item = some part → part.flatMap f = f item) :
    items.flatMap f = base.flatMap f := by
  induction unfolded with
  | nil => rfl
  | kept item rest ih =>
    rw [List.flatMap_cons, List.flatMap_cons, ih fun other mem => same other (.tail _ mem)]
  | opened opened rest ih =>
    rw [List.flatMap_append, List.flatMap_cons, same _ (.head _) _ opened,
      ih fun other mem => same other (.tail _ mem)]

section Closed

variable (closed : ∀ item part, opens item = some part → ∀ piece ∈ part, opens piece = none)
include closed

/-- One more item unfolded. -/
theorem Unfolded.unfold (unfolded : Unfolded opens base items) {index : Nat} {item : α}
    {part : List α} (found : items[index]? = some item) (opens_ : opens item = some part) :
    Unfolded opens base (items.take index ++ part ++ items.drop (index + 1)) := by
  induction unfolded generalizing index with
  | nil => cases found
  | kept first rest ih =>
    cases index with
    | zero =>
      obtain rfl := Option.some.inj found
      exact .opened opens_ rest
    | succ index => exact .kept first (ih found)
  | @opened first ahead base items opened rest ih =>
    rcases Nat.lt_or_ge index ahead.length with less | beyond
    · rw [List.getElem?_append_left less] at found
      have none_ := closed first ahead opened item (List.mem_of_getElem? found)
      exact nomatch none_.symm.trans opens_
    · obtain ⟨more, rfl⟩ := Nat.exists_eq_add_of_le beyond
      rw [List.getElem?_append_right beyond, Nat.add_sub_cancel_left] at found
      rw [List.take_length_add_append, Nat.add_assoc, List.drop_length_add_append, List.append_assoc,
        List.append_assoc, ← List.append_assoc (items.take more)]
      exact .opened opened (ih found)

/-- Any items unfolded at once. -/
theorem Unfolded.flatMap (unfolded : Unfolded opens base items) (f : α → List α)
    (each : ∀ item, f item = [item] ∨ opens item = some (f item)) :
    Unfolded opens base (items.flatMap f) := by
  induction unfolded with
  | nil => exact .nil
  | kept item rest ih =>
    rw [List.flatMap_cons]
    rcases each item with same | opened
    · rw [same]
      exact .kept item ih
    · exact .opened opened ih
  | @opened item part base items opened rest ih =>
    have still : ∀ piece ∈ part, f piece = [piece] := fun piece mem =>
      (each piece).resolve_right fun some_ => nomatch (closed item part opened piece mem).symm.trans some_
    rw [List.flatMap_append, List.flatMap_congr still, List.flatMap_singleton']
    exact .opened opened ih

end Closed

end ProgressiveReviewer.Library

/-! Lists that are thinned out: an item goes when the one right after it makes it superfluous. -/

namespace ProgressiveReviewer.Library

variable {α σ : Type} {absorbs : α → α → Prop}

/-- The second list is the first without items that the next one absorbs. -/
inductive Thinned (absorbs : α → α → Prop) : List α → List α → Prop
  | nil : Thinned absorbs [] []
  | keep {items kept : List α} (item : α) (rest : Thinned absorbs items kept) :
      Thinned absorbs (item :: items) (item :: kept)
  | drop {items kept : List α} {item later : α} (absorbed : absorbs item later)
      (rest : Thinned absorbs (later :: items) kept) : Thinned absorbs (item :: later :: items) kept

namespace Thinned

variable {items kept : List α}

theorem refl (items : List α) : Thinned absorbs items items := by
  induction items with
  | nil => exact .nil
  | cons item items ih => exact .keep item ih

theorem append {more others : List α} (thinned : Thinned absorbs items kept)
    (rest : Thinned absorbs more others) : Thinned absorbs (items ++ more) (kept ++ others) := by
  induction thinned with
  | nil => exact rest
  | keep item _ ih => exact .keep item ih
  | drop absorbed _ ih => exact .drop absorbed ih

theorem ne_nil (thinned : Thinned absorbs items kept) (some : items ≠ []) : kept ≠ [] := by
  induction thinned with
  | nil => exact some
  | keep item _ _ => exact List.cons_ne_nil _ _
  | drop _ _ ih => exact ih (List.cons_ne_nil _ _)

/-- The last item that is kept is the last one, so that the next one can absorb it. -/
theorem absorb {last next : α} (thinned : Thinned absorbs items (kept ++ [last]))
    (absorbed : absorbs last next) : Thinned absorbs (items ++ [next]) (kept ++ [next]) := by
  generalize whole : kept ++ [last] = all at thinned
  induction thinned generalizing kept with
  | nil => simp at whole
  | @keep items others item rest ih =>
    cases kept with
    | nil =>
      obtain ⟨rfl, rfl⟩ := List.cons.inj whole
      cases items with
      | nil => exact .drop absorbed (.keep next .nil)
      | cons first items => exact absurd rfl (rest.ne_nil (List.cons_ne_nil _ _))
    | cons first kept =>
      obtain ⟨rfl, rfl⟩ := List.cons.inj whole
      exact .keep first (ih rfl)
  | drop own _ ih => exact .drop own (ih whole)

/-- The items next to each other decide what absorbs what. -/
theorem imp {other : α → α → Prop} (thinned : Thinned absorbs items kept)
    (chain : items.IsChain fun item later => absorbs item later → other item later) :
    Thinned other items kept := by
  induction thinned with
  | nil => exact .nil
  | keep item _ ih => exact .keep item (ih chain.tail)
  | drop absorbed _ ih => exact .drop (chain.rel absorbed) (ih chain.tail)

end Thinned

/-- Every item is fine where it is handled. -/
def AllFine (step : σ → α → σ) (fine : σ → α → Prop) : σ → List α → Prop
  | _, [] => True
  | state, item :: items => fine state item ∧ AllFine step fine (step state item) items

theorem AllFine.of_append {step : σ → α → σ} {fine : σ → α → Prop} {state : σ} {front back : List α}
    (all : AllFine step fine state (front ++ back)) : AllFine step fine state front := by
  induction front generalizing state with
  | nil => trivial
  | cons item front ih => exact ⟨all.1, ih all.2⟩

/-- Handling the items that are kept comes to handling all of them. -/
theorem Thinned.foldl_eq {step : σ → α → σ} {fine : σ → α → Prop}
    (law : ∀ state item later, absorbs item later → fine state item →
      fine (step state item) later →
        fine state later ∧ step (step state item) later = step state later)
    {items kept : List α} (thinned : Thinned absorbs items kept) {state : σ}
    (all : AllFine step fine state items) : kept.foldl step state = items.foldl step state := by
  induction thinned generalizing state with
  | nil => rfl
  | keep item _ ih => exact ih all.2
  | @drop items kept item later absorbed _ ih =>
    obtain ⟨own, fine, rest⟩ := all
    obtain ⟨fine, same⟩ := law state item later absorbed own fine
    rw [same] at rest
    rw [ih ⟨fine, rest⟩, List.foldl_cons, List.foldl_cons, List.foldl_cons, same]

end ProgressiveReviewer.Library
