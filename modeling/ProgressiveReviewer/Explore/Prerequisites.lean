import Mathlib.Algebra.Order.BigOperators.Group.List
import ProgressiveReviewer.Explore.Agenda
import ProgressiveReviewer.Library.Links

/-! The search for a cycle of prerequisites (`Topic::validate_prerequisites` of
`review-explore/src/agenda_validation.rs`): it ends, and it passes exactly the topics that
do not lead back to themselves. -/

namespace ProgressiveReviewer.Explore

open Library Relation

/-- What each topic of an agenda requires. -/
def requirements (topics : SortedMap String Topic) (id : String) : Option (List String) :=
  (topics.lookup id).map (·.prerequisites)

namespace Topic

/-- The search as a loop, without a bound on how many prerequisites it follows. -/
inductive Follows (topic : Topic) (topics : SortedMap String Topic) :
    List String → List String → Except String Unit → Prop
  | done {visited : List String} : Follows topic topics visited [] (.ok ())
  | back {visited pending : List String} : Follows topic topics visited (topic.id :: pending)
      (.error s!"The prerequisites of topic {topic.id} lead back to it")
  | unknown {visited pending : List String} {id : String} : id ≠ topic.id →
      topics.lookup id = none → Follows topic topics visited (id :: pending)
        (.error s!"Topic {topic.id} has an unknown prerequisite {id}")
  | seen {visited pending : List String} {id : String} {prerequisite : Topic}
      {result : Except String Unit} : id ≠ topic.id → topics.lookup id = some prerequisite →
      id ∈ visited → Follows topic topics visited pending result →
      Follows topic topics visited (id :: pending) result
  | visit {visited pending : List String} {id : String} {prerequisite : Topic}
      {result : Except String Unit} : id ≠ topic.id → topics.lookup id = some prerequisite →
      id ∉ visited → Follows topic topics (id :: visited)
        (prerequisite.prerequisites.reverse ++ pending) result →
      Follows topic topics visited (id :: pending) result

variable {topic : Topic} {topics : SortedMap String Topic} {visited pending : List String}

/-- Visiting a topic pays for its prerequisites. -/
theorem unvisited_cons {visited : List String} {id : String} {prerequisite : Topic}
    (found : topics.lookup id = some prerequisite) (new : id ∉ visited) :
    unvisited topics (id :: visited) + prerequisite.prerequisites.length ≤
      unvisited topics visited := by
  have mem := SortedMap.lookup_eq_some.mp found
  have key : ∀ entries : List (String × Topic), (id, prerequisite) ∈ entries →
      ((entries.filter fun entry => entry.1 ∉ id :: visited).map
          fun entry => entry.2.prerequisites.length).sum + prerequisite.prerequisites.length ≤
        ((entries.filter fun entry => entry.1 ∉ visited).map
          fun entry => entry.2.prerequisites.length).sum := by
    have less : ∀ entries : List (String × Topic),
        ((entries.filter fun entry => entry.1 ∉ id :: visited).map
            fun entry => entry.2.prerequisites.length).sum ≤
          ((entries.filter fun entry => entry.1 ∉ visited).map
            fun entry => entry.2.prerequisites.length).sum := by
      intro entries
      refine ((List.monotone_filter_right entries fun entry kept => ?_).map _).sum_le_sum
        fun _ _ => Nat.zero_le _
      simp only [List.mem_cons, not_or, decide_eq_true_eq] at kept ⊢
      exact kept.2
    intro entries mem
    induction entries with
    | nil => cases mem
    | cons first rest ih =>
      rcases List.mem_cons.mp mem with rfl | mem
      · simp only [List.mem_cons, true_or, not_true, decide_false, Bool.false_eq_true,
          not_false_eq_true, List.filter_cons_of_neg, new, decide_true, List.filter_cons_of_pos,
          List.map_cons, List.sum_cons]
        have := less rest
        simp only [List.mem_cons] at this
        omega
      · have rest := ih mem
        by_cases seen : first.1 ∈ visited
        · simpa [seen] using rest
        · by_cases same : first.1 = id
          · simp only [List.mem_cons, same, true_or, not_true, decide_false, Bool.false_eq_true,
              not_false_eq_true, List.filter_cons_of_neg, new, decide_true,
              List.filter_cons_of_pos, List.map_cons, List.sum_cons] at rest ⊢
            omega
          · simp only [List.mem_cons, same, seen, or_self, not_false_eq_true, decide_true,
              List.filter_cons_of_pos, List.map_cons, List.sum_cons] at rest ⊢
            omega
  exact key _ mem

/-- The search ends: with fuel for every pending prerequisite and every one still to be
named, it runs to the end of the loop. -/
theorem follows_followPrerequisites {fuel : Nat}
    (enough : pending.length + unvisited topics visited ≤ fuel) :
    topic.Follows topics visited pending (topic.followPrerequisites topics fuel visited pending) := by
  induction fuel generalizing visited pending with
  | zero =>
    obtain rfl := List.eq_nil_of_length_eq_zero (show pending.length = 0 by omega)
    exact .done
  | succ fuel ih =>
    cases pending with
    | nil => exact .done
    | cons id pending =>
      rw [List.length_cons] at enough
      rw [followPrerequisites]
      by_cases own : id = topic.id
      · subst own
        simpa [ensure, bind, Except.bind] using Follows.back
      · cases found : topics.lookup id with
        | none => simpa [ensure, bind, Except.bind, own] using Follows.unknown own found
        | some prerequisite =>
          by_cases again : id ∈ visited
          · have rest : topic.Follows topics visited pending
                (topic.followPrerequisites topics fuel visited pending) := ih (by omega)
            simpa [ensure, bind, Except.bind, own, again] using Follows.seen own found again rest
          · have paid := unvisited_cons found again
            have rest : topic.Follows topics (id :: visited)
                (prerequisite.prerequisites.reverse ++ pending)
                (topic.followPrerequisites topics fuel (id :: visited)
                  (prerequisite.prerequisites.reverse ++ pending)) :=
              ih (by simp only [List.length_append, List.length_reverse]; omega)
            simpa [ensure, bind, Except.bind, own, again] using Follows.visit own found again rest

theorem follows_validatePrerequisites :
    topic.Follows topics [] topic.prerequisites.reverse (topic.validatePrerequisites topics) :=
  follows_followPrerequisites (by simp)

/-- What is reached from the visited topics is visited or reached from the pending ones, so
a search that ends well saw all of it. -/
theorem Follows.sound {result : Except String Unit}
    (follows : topic.Follows topics visited pending result) (passed : result = .ok ())
    (paid : ∀ a ∈ visited, ∀ b, Linked (requirements topics) a b → b ∈ visited ∨ b ∈ pending)
    (fine : ∀ a ∈ visited, (requirements topics a).isSome = true ∧ a ≠ topic.id) :
    ∀ a, a ∈ visited ∨ a ∈ pending → ∀ b, ReflTransGen (Linked (requirements topics)) a b →
      (requirements topics b).isSome = true ∧ b ≠ topic.id := by
  induction follows with
  | @done visited =>
    intro a start b path
    have held : b ∈ visited := reaches_closed
      (fun a mem b link => (paid a mem b link).resolve_right List.not_mem_nil)
      (start.resolve_right List.not_mem_nil) path
    exact fine b held
  | back => cases passed
  | unknown => cases passed
  | seen own found again _ ih =>
    intro a start
    refine ih passed (fun a mem b link => ?_) fine a ?_
    · rcases paid a mem b link with held | held
      · exact .inl held
      · rcases List.mem_cons.mp held with rfl | held
        · exact .inl again
        · exact .inr held
    · rcases start with held | held
      · exact .inl held
      · rcases List.mem_cons.mp held with rfl | held
        · exact .inl again
        · exact .inr held
  | @visit visited pending id prerequisite result own found new _ ih =>
    have known : requirements topics id = some prerequisite.prerequisites := by
      rw [requirements, found]; rfl
    have moved : ∀ a, a ∈ visited ∨ a ∈ id :: pending →
        a ∈ id :: visited ∨ a ∈ prerequisite.prerequisites.reverse ++ pending := by
      intro a held
      simp only [List.mem_cons, List.mem_append] at held ⊢
      tauto
    intro a start
    refine ih passed (fun a mem b link => ?_) (List.forall_mem_cons.mpr ⟨?_, fine⟩) a (moved a start)
    · rcases List.mem_cons.mp mem with rfl | mem
      · obtain ⟨named, same, mem⟩ := link
        obtain rfl := Option.some.inj (known.symm.trans same)
        exact .inr (List.mem_append_left _ (List.mem_reverse.mpr mem))
      · exact moved b (paid a mem b link)
    · exact ⟨by rw [known]; rfl, own⟩

theorem Follows.complete {result : Except String Unit}
    (follows : topic.Follows topics visited pending result)
    (fine : ∀ a ∈ pending, ∀ b, ReflTransGen (Linked (requirements topics)) a b →
      (requirements topics b).isSome = true ∧ b ≠ topic.id) : result = .ok () := by
  induction follows with
  | done => rfl
  | back => exact absurd rfl (fine _ List.mem_cons_self _ .refl).2
  | unknown own absent =>
    have known := (fine _ List.mem_cons_self _ .refl).1
    rw [requirements, absent] at known
    cases known
  | seen _ _ _ _ ih => exact ih fun a mem => fine a (List.mem_cons_of_mem _ mem)
  | visit own found _ _ ih =>
    refine ih fun a mem b path => ?_
    rcases List.mem_append.mp mem with named | mem
    · have link : Linked (requirements topics) _ a :=
        ⟨_, by rw [requirements, found]; rfl, List.mem_reverse.mp named⟩
      exact fine _ List.mem_cons_self b (path.head link)
    · exact fine a (List.mem_cons_of_mem _ mem) b path

/-- The check passes a topic when what its prerequisites lead to is known and is not the
topic. -/
theorem validatePrerequisites_eq_ok : topic.validatePrerequisites topics = .ok () ↔
    ∀ a ∈ topic.prerequisites, ∀ b, ReflTransGen (Linked (requirements topics)) a b →
      (requirements topics b).isSome = true ∧ b ≠ topic.id := by
  constructor
  · intro passed a mem
    exact follows_validatePrerequisites.sound passed (fun _ absent => absurd absent List.not_mem_nil)
      (fun _ absent => absurd absent List.not_mem_nil) a (.inr (List.mem_reverse.mpr mem))
  · intro fine
    exact follows_validatePrerequisites.complete fun a mem => fine a (List.mem_reverse.mp mem)

theorem requirements_isSome {id : String} :
    (requirements topics id).isSome = topics.contains id := by
  rw [requirements, Option.isSome_map, SortedMap.lookup_isSome]

/-- The checks of an agenda pass exactly when its prerequisites are known and acyclic. -/
theorem forM_validatePrerequisites (keyed : ∀ id topic, topics.lookup id = some topic → topic.id = id) :
    (topics.values.forM fun topic => topic.validatePrerequisites topics) = .ok () ↔
      Grounded (requirements topics) := by
  rw [forM_eq_ok, grounded_iff]
  simp only [validatePrerequisites_eq_ok, requirements, Option.map_eq_some_iff]
  constructor
  · rintro passed id _ ⟨topic, found, rfl⟩
    exact keyed id topic found ▸ passed topic (SortedMap.mem_values.mpr ⟨id, found⟩)
  · intro grounded topic mem
    obtain ⟨id, found⟩ := SortedMap.mem_values.mp mem
    exact keyed id topic found ▸ grounded id _ ⟨topic, found, rfl⟩

end Topic

end ProgressiveReviewer.Explore
