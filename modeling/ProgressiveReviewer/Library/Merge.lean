import ProgressiveReviewer.Library.LineText

/-! Merging the two sides of an edit script line by line: of each edit some replaced
lines stay and some new lines come in after them. The merged lines are the lines of
their text unless a last line without terminator stays in front of a new one. -/

namespace ProgressiveReviewer.Library

open Extent

variable {α β : Type*}

/-- The elements at some positions. -/
def elements (xs : List α) (ns : List Nat) : List α := ns.filterMap fun n => xs[n]?

/-- What becomes of one edit: the replaced positions that stay and the new ones that
come in after them. -/
structure Choice where
  edit : Edit
  stay : List Nat
  come : List Nat

/-- The chosen positions are the edit's own, in order. -/
structure Choice.Fits (c : Choice) : Prop where
  stay : c.stay.Sublist c.edit.before.positions
  come : c.come.Sublist c.edit.after.positions

/-- `xs` from position `i` on, with what stays and what comes in at each edit. -/
def merge (xs ys : List α) : Nat → List Choice → List α
  | i, [] => xs.drop i
  | i, c :: cs =>
    cut xs ⟨i, c.edit.before.start⟩ ++ (elements xs c.stay ++ (elements ys c.come ++
      merge xs ys c.edit.before.stop cs))

theorem elements_map (f : α → β) (xs : List α) (ns : List Nat) :
    elements (xs.map f) ns = (elements xs ns).map f := by
  simp [elements, List.map_filterMap]

theorem merge_map (f : α → β) (xs ys : List α) (i : Nat) (cs : List Choice) :
    merge (xs.map f) (ys.map f) i cs = (merge xs ys i cs).map f := by
  induction cs generalizing i with
  | nil => simp [merge]
  | cons c cs ih => simp [merge, ih, elements_map, cut]

theorem elements_positions (xs : List α) (r : Extent) (h : r.stop ≤ xs.length) :
    elements xs r.positions = r.cut xs := by
  have all := congrArg (List.filterMap id) (cut_eq_positions xs r h)
  simpa [elements, List.filterMap_map, Function.comp_def] using all.symm

@[simp] theorem elements_nil (xs : List α) : elements xs [] = [] := rfl

theorem mem_elements {xs : List α} {ns : List Nat} {a : α} :
    a ∈ elements xs ns ↔ ∃ n ∈ ns, xs[n]? = some a := List.mem_filterMap

theorem elements_sublist (xs : List α) {r : Extent} {ns : List Nat} (h : r.stop ≤ xs.length)
    (sub : ns.Sublist r.positions) : (elements xs ns).Sublist (r.cut xs) := by
  rw [← elements_positions xs r h]
  exact sub.filterMap _

theorem elements_eq_nil {xs : List α} {r : Extent} {ns : List Nat} (h : r.stop ≤ xs.length)
    (sub : ns.Sublist r.positions) : elements xs ns = [] ↔ ns = [] := by
  refine ⟨fun empty => ?_, fun none_left => by rw [none_left]; rfl⟩
  rw [List.eq_nil_iff_forall_not_mem]
  intro n mem
  have bound := (mem_positions r n).mp (sub.subset mem)
  have found : xs[n] ∈ elements xs ns := mem_elements.mpr ⟨n, mem, List.getElem?_eq_getElem (by omega)⟩
  simp [empty] at found

variable {nl : α → Bool}

theorem LineList.sublist {as bs : List (List α)} (h : LineList nl bs) (sub : as.Sublist bs) :
    LineList nl as := by
  induction sub with
  | slnil => trivial
  | cons line _ ih => exact ih h.tail
  | cons_cons line sub ih =>
    have parts := lineList_cons.mp h
    refine lineList_cons.mpr ⟨ih parts.1, parts.2.1, fun ne => parts.2.2 ?_⟩
    rintro rfl
    exact ne (List.sublist_nil.mp sub)

/-- A line that is not the last one of a text is terminated. -/
theorem LineList.terminated_get {lines : List (List α)} (h : LineList nl lines) {n : Nat}
    {line : List α} (get : lines[n]? = some line) (before_end : n + 1 < lines.length) :
    Terminated nl line := by
  refine h.terminated_of_cut (r := ⟨n, n + 1⟩) before_end line ?_
  exact List.mem_of_getElem? (i := 0) (by simpa [cut_getElem?] using get)

/-- A line without terminator is the last one of its text. -/
theorem LineList.index_of_bare {lines : List (List α)} (h : LineList nl lines) {n : Nat}
    {line : List α} (get : lines[n]? = some line) (bare : Unterminated nl line) :
    n + 1 = lines.length := by
  have bound := (List.getElem?_eq_some_iff.mp get).1
  by_cases inside : n + 1 < lines.length
  · exact absurd bare (h.terminated_get get inside).not_unterminated
  · omega

theorem LineList.getLast?_of_mem {lines : List (List α)} (h : LineList nl lines) {line : List α}
    (mem : line ∈ lines) (bare : Unterminated nl line) : lines.getLast? = some line := by
  obtain ⟨n, get⟩ := List.mem_iff_getElem?.mp mem
  rw [List.getLast?_eq_getElem?, ← h.index_of_bare get bare, Nat.add_sub_cancel, get]

/-- Two merged lines glue: the last line of the first list has no terminator and
stays in front of a line that comes in. -/
def Glues (nl : α → Bool) (xs : List (List α)) (cs : List Choice) : Prop :=
  ∃ c, cs.getLast? = some c ∧ c.come ≠ [] ∧ xs.length - 1 ∈ c.stay ∧
    ∃ line, xs.getLast? = some line ∧ Unterminated nl line

variable {xs ys : List (List α)} {gap i j : Nat}

/-- What stays of an edit is terminated unless the last line stays without a
terminator. -/
theorem terminated_stay {ns : List Nat} (hx : LineList nl xs) :
    (∀ line ∈ elements xs ns, Terminated nl line) ↔
      ¬ (xs.length - 1 ∈ ns ∧ ∃ line, xs.getLast? = some line ∧ Unterminated nl line) := by
  constructor
  · rintro all ⟨stays, line, last, bare⟩
    have mem : line ∈ elements xs ns :=
      mem_elements.mpr ⟨xs.length - 1, stays, by rw [← last, List.getLast?_eq_getElem?]⟩
    exact (all line mem).not_unterminated bare
  · intro clear line mem
    obtain ⟨n, stays, get⟩ := mem_elements.mp mem
    have bound := (List.getElem?_eq_some_iff.mp get).1
    by_cases inside : n + 1 < xs.length
    · exact hx.terminated_get get inside
    · have isLast : n = xs.length - 1 := by omega
      subst isLast
      have single : LineList nl [line] :=
        hx.sublist (List.singleton_sublist.mpr (List.mem_of_getElem? get))
      rcases single with ends | bare
      · exact ends
      · exact absurd ⟨stays, line, by rw [List.getLast?_eq_getElem?, get], bare⟩ clear

/-- Merged lines are the lines of their text exactly when no two of them glue. -/
theorem lineList_merge {cs : List Choice} (script : ScriptFrom xs ys gap i j (cs.map Choice.edit))
    (fits : ∀ c ∈ cs, c.Fits) (hx : LineList nl xs) (hy : LineList nl ys) :
    LineList nl (merge xs ys i cs) ↔ ¬ Glues nl xs cs := by
  induction cs generalizing gap i j with
  | nil =>
    have rest : LineList nl (xs.drop i) := hx.sublist (List.drop_sublist i xs)
    simpa [merge, Glues] using rest
  | cons c cs ih =>
    have fit := script.1
    have beforeLe := fit.before_le
    have beforeStop := fit.before_stop
    have afterStop := fit.after_stop
    have own := fits c List.mem_cons_self
    have subX := elements_sublist xs beforeStop own.stay
    have subY := elements_sublist ys afterStop own.come
    have keptX := (hx.cut c.edit.before).sublist subX
    have keptY := (hy.cut c.edit.after).sublist subY
    have front : ∀ line ∈ cut xs ⟨i, c.edit.before.start⟩, Terminated nl line := by
      by_cases inside : c.edit.before.start < xs.length
      · exact hx.terminated_of_cut inside
      · rw [fit.kept]
        have nonempty := fit.nonempty
        exact hy.terminated_of_cut (by dsimp only; omega)
    have dropFront : LineList nl (merge xs ys i (c :: cs)) ↔
        LineList nl (elements xs c.stay ++ (elements ys c.come ++
          merge xs ys c.edit.before.stop cs)) := by
      rw [merge, lineList_append]
      exact ⟨fun h => h.2.1, fun h => ⟨hx.cut _, h, fun _ => front⟩⟩
    rw [dropFront, lineList_append]
    by_cases isLast : cs = []
    · subst isLast
      have tail : xs.drop c.edit.before.stop = ys.drop c.edit.after.stop := script.2
      have back : LineList nl (elements ys c.come ++ xs.drop c.edit.before.stop) := by
        refine lineList_append.mpr ⟨keptY, hx.sublist (List.drop_sublist _ xs), fun ne line mem => ?_⟩
        have inside : c.edit.after.stop < ys.length := by
          rw [tail] at ne
          simpa using ne
        exact hy.terminated_of_cut inside line (subY.subset mem)
      simp only [merge, keptX, back, true_and, terminated_stay hx, Glues,
        List.getLast?_singleton, Option.some.injEq, exists_eq_left']
      by_cases stays : xs.length - 1 ∈ c.stay
      · -- the edit reaches the end of `xs`, so nothing follows the lines that come in
        have bound := (mem_positions c.edit.before _).mp (own.stay.subset stays)
        have noTail : xs.drop c.edit.before.stop = [] := List.drop_eq_nil_of_le (by omega)
        rw [noTail, List.append_nil, ne_eq, elements_eq_nil afterStop own.come]
        exact not_and.symm
      · simp [stays]
    · obtain ⟨next, others, rfl⟩ := List.exists_cons_of_ne_nil isLast
      have bounds := script.2.bounds (e := next.edit) List.mem_cons_self
      have termX : ∀ line ∈ elements xs c.stay, Terminated nl line := fun line mem =>
        hx.terminated_of_cut (by omega) line (subX.subset mem)
      have termY : ∀ line ∈ elements ys c.come, Terminated nl line := fun line mem =>
        hy.terminated_of_cut (by omega) line (subY.subset mem)
      have sameGlue : Glues nl xs (c :: next :: others) ↔ Glues nl xs (next :: others) := by
        simp [Glues]
      rw [sameGlue, ← ih script.2 fun c mem => fits c (List.mem_cons_of_mem _ mem),
        lineList_append]
      exact ⟨fun h => h.2.1.2.1, fun h => ⟨keptX, ⟨keptY, h, fun _ => termY⟩, fun _ => termX⟩⟩

/-! Where two lines glue, they are one line of the merged text. -/

/-- What the last edit leaves and puts stands in front of what follows it. -/
theorem merge_concat (xs ys : List α) (i : Nat) (cs : List Choice) (e : Edit) :
    ∃ front, ∀ stay come, merge xs ys i (cs ++ [⟨e, stay, come⟩]) =
      front ++ (elements xs stay ++ (elements ys come ++ xs.drop e.before.stop)) := by
  induction cs generalizing i with
  | nil => exact ⟨cut xs ⟨i, e.before.start⟩, fun _ _ => rfl⟩
  | cons c cs ih =>
    obtain ⟨front, eq⟩ := ih c.edit.before.stop
    refine ⟨cut xs ⟨i, c.edit.before.start⟩ ++ (elements xs c.stay ++
      (elements ys c.come ++ front)), fun stay come => ?_⟩
    simp only [List.cons_append, merge, eq, List.append_assoc]

/-- Positions of a range in order that hold its last one end with it. -/
theorem eq_append_last {ns : List Nat} {r : Extent} {n : Nat} (sub : ns.Sublist r.positions)
    (stop : r.stop = n + 1) (mem : n ∈ ns) : ∃ init, ns = init ++ [n] := by
  have sorted := (positions_sorted r).sublist sub
  obtain ⟨init, rest, rfl⟩ := List.append_of_mem mem
  cases rest with
  | nil => exact ⟨init, rfl⟩
  | cons m rest =>
    have inside := (mem_positions r m).mp (sub.subset (by simp))
    have less := (List.pairwise_cons.mp (List.pairwise_append.mp sorted).2.1).1 m (by simp)
    omega

theorem Terminated.append {body line : List α} (clear : ∀ a ∈ body, nl a = false)
    (term : Terminated nl line) : Terminated nl (body ++ line) := by
  induction body with
  | nil => exact term
  | cons a as ih =>
    exact (ih fun b mem => clear b (List.mem_cons_of_mem a mem)).cons (clear a List.mem_cons_self)

/-- A line without terminator joins the first of the lines written after it. -/
theorem LineList.join {front back : List (List α)} {bare next : List α}
    (hf : LineList nl (front ++ [bare])) (hb : LineList nl (next :: back))
    (un : Unterminated nl bare) : LineList nl (front ++ (bare ++ next) :: back) := by
  have parts := lineList_append.mp hf
  have line := lineList_cons.mp hb
  have follow : back ≠ [] → Terminated nl (bare ++ next) := fun ne => (line.2.2 ne).append un.2
  refine lineList_append.mpr ⟨parts.1, lineList_cons.mpr ⟨line.1, ?_, follow⟩,
    fun _ => parts.2.2 (by simp)⟩
  rcases line.2.1 with term | bare'
  · exact Or.inl (term.append un.2)
  · refine Or.inr ⟨by simp [un.1], fun a mem => ?_⟩
    rcases List.mem_append.mp mem with mem | mem
    · exact un.2 a mem
    · exact bare'.2 a mem

/-- The lines of a text whose merge glues two lines: the last line of the first list and
the first line that comes in are one. -/
theorem splitInclusive_of_glues {cs : List Choice}
    (script : ScriptFrom xs ys gap i j (cs.map Choice.edit)) (fits : ∀ c ∈ cs, c.Fits)
    (hx : LineList nl xs) (hy : LineList nl ys) (glues : Glues nl xs cs) :
    ∃ c front bare next back, cs.getLast? = some c ∧ xs.getLast? = some bare ∧
      Unterminated nl bare ∧ elements ys c.come = next :: back ∧
        splitInclusive nl (merge xs ys i cs).flatten = front ++ (bare ++ next) :: back := by
  obtain ⟨c, last, come, stay, bare, ends, un⟩ := glues
  obtain ⟨init, rfl⟩ := List.getLast?_eq_some_iff.mp last
  have own := fits c (by simp)
  have bounds := script.bounds (e := c.edit) (by simp)
  have inside := (mem_positions c.edit.before _).mp (own.stay.subset stay)
  have stop : c.edit.before.stop = xs.length - 1 + 1 := by omega
  have noTail : xs.drop c.edit.before.stop = [] := List.drop_eq_nil_of_le (by omega)
  obtain ⟨stays, eqStay⟩ := eq_append_last own.stay stop stay
  have stayLines : elements xs c.stay = elements xs stays ++ [bare] := by
    rw [List.getLast?_eq_getElem?] at ends
    rw [eqStay, elements, List.filterMap_append]
    simp [elements, ends]
  obtain ⟨front, merged⟩ := merge_concat xs ys i init c.edit
  have comes : elements ys c.come ≠ [] := by
    rw [ne_eq, elements_eq_nil (by omega) own.come]
    exact come
  obtain ⟨next, back, comeLines⟩ := List.exists_cons_of_ne_nil comes
  -- without the lines that come in, nothing glues
  have script' : ScriptFrom xs ys gap i j
      ((init ++ [(⟨c.edit, c.stay, []⟩ : Choice)]).map Choice.edit) := by simpa using script
  have before : LineList nl (merge xs ys i (init ++ [⟨c.edit, c.stay, []⟩])) := by
    refine (lineList_merge script' ?_ hx hy).mpr ?_
    · intro other mem
      rcases List.mem_append.mp mem with mem | mem
      · exact fits other (List.mem_append_left _ mem)
      · obtain rfl := List.mem_singleton.mp mem
        exact ⟨own.stay, List.nil_sublist _⟩
    · rintro ⟨other, isLast, nonempty, -⟩
      rw [List.getLast?_concat, Option.some.injEq] at isLast
      exact nonempty (isLast ▸ rfl)
  have after : LineList nl (next :: back) := by
    rw [← comeLines]
    exact (hy.cut c.edit.after).sublist (elements_sublist ys (by omega) own.come)
  rw [merged, stayLines, noTail, elements_nil, List.append_nil, List.append_nil,
    ← List.append_assoc] at before
  refine ⟨c, front ++ elements xs stays, bare, next, back, last, ends, un, comeLines, ?_⟩
  rw [← splitInclusive_flatten (before.join after un), merged c.stay c.come, stayLines, comeLines,
    noTail]
  simp

/-! Taking some edits whole and leaving the others never glues lines. -/

def Choice.take (e : Edit) : Choice := ⟨e, [], e.after.positions⟩

def Choice.leave (e : Edit) : Choice := ⟨e, e.before.positions, []⟩

theorem merge_from (xs ys : List α) {i k : Nat} {cs : List Choice} (le : i ≤ k)
    (later : ∀ c ∈ cs, k ≤ c.edit.before.start) :
    merge xs ys i cs = cut xs ⟨i, k⟩ ++ merge xs ys k cs := by
  cases cs with
  | nil => exact (cut_append_drop xs le).symm
  | cons c cs =>
    have := later c List.mem_cons_self
    simp only [merge, ← List.append_assoc, cut_append_cut xs le this]

/-- Taking every edit of a script makes the second list. -/
theorem merge_take {xs ys : List α} {es : List Edit} (script : ScriptFrom xs ys gap i j es) :
    merge xs ys i (es.map Choice.take) = ys.drop j := by
  induction es generalizing gap i j with
  | nil => exact script
  | cons e es ih =>
    have fit := script.1
    have start := fit.after_start
    simp only [List.map_cons, merge, Choice.take, elements_nil, List.nil_append,
      elements_positions ys _ fit.after_stop]
    rw [fit.kept, show merge xs ys e.before.stop _ = _ from ih script.2,
      cut_append_drop ys fit.after_le, cut_append_drop ys (by omega)]

/-- Taking the edits of one list and leaving the others. -/
def Choice.of (sub : List Edit) (e : Edit) : Choice := if e ∈ sub then .take e else .leave e

theorem Choice.of_cases (sub : List Edit) (e : Edit) :
    (Choice.of sub e).edit = e ∧ (Choice.of sub e = .take e ∨ Choice.of sub e = .leave e) := by
  unfold Choice.of
  split_ifs
  · exact ⟨rfl, Or.inl rfl⟩
  · exact ⟨rfl, Or.inr rfl⟩

/-- Leaving an edit is the same as not naming it. -/
theorem merge_of {xs ys : List α} {sub es : List Edit} (h : sub.Sublist es)
    (script : ScriptFrom xs ys gap i j es) :
    merge xs ys i (es.map (Choice.of sub)) = merge xs ys i (sub.map Choice.take) := by
  induction h generalizing gap i j with
  | slnil => rfl
  | @cons sub es e h ih =>
    have fit := script.1
    have start := fit.before_start
    have own : e ∉ sub := by
      intro mem
      have := script.2.bounds (h.subset mem)
      have := fit.nonempty
      omega
    have later : ∀ c ∈ sub.map Choice.take, e.before.stop ≤ c.edit.before.start := by
      intro c mem
      obtain ⟨f, inside, rfl⟩ := List.mem_map.mp mem
      have := script.2.bounds (h.subset inside)
      simp only [Choice.take]
      omega
    rw [merge_from xs ys (by have := fit.before_le; omega) later, ← ih script.2, List.map_cons,
      merge, Choice.of, if_neg own, Choice.leave, elements_positions xs _ fit.before_stop]
    simp only [elements_nil, List.nil_append, ← List.append_assoc]
    rw [cut_append_cut xs (by omega) fit.before_le]
  | @cons_cons sub es e h ih =>
    have others : es.map (Choice.of (e :: sub)) = es.map (Choice.of sub) := by
      refine List.map_congr_left fun f mem => ?_
      have differs : f ≠ e := by
        rintro rfl
        have := script.2.bounds mem
        have := script.1.nonempty
        omega
      simp [Choice.of, differs]
    rw [List.map_cons, others, List.map_cons, merge, merge, Choice.of, if_pos List.mem_cons_self]
    rw [show (Choice.take e).edit = e from rfl, ih script.2]

theorem lineList_take {sub es : List Edit} (h : sub.Sublist es) (script : ScriptFrom xs ys gap i j es)
    (hx : LineList nl xs) (hy : LineList nl ys) :
    LineList nl (merge xs ys i (sub.map Choice.take)) := by
  rw [← merge_of h script]
  have edits : (es.map (Choice.of sub)).map Choice.edit = es := by
    rw [List.map_map]
    exact (List.map_congr_left fun e _ => (Choice.of_cases sub e).1).trans (List.map_id es)
  have whole : ∀ c ∈ es.map (Choice.of sub), c = .take c.edit ∨ c = .leave c.edit := by
    intro c mem
    obtain ⟨e, -, rfl⟩ := List.mem_map.mp mem
    have parts := Choice.of_cases sub e
    rw [parts.1]
    exact parts.2
  refine (lineList_merge (edits.symm ▸ script) (fun c mem => ?_) hx hy).mpr ?_
  · rcases whole c mem with eq | eq <;> rw [eq]
    · exact ⟨List.nil_sublist _, List.Sublist.refl _⟩
    · exact ⟨List.Sublist.refl _, List.nil_sublist _⟩
  · rintro ⟨c, last, comes, stays, _⟩
    rcases whole c (List.mem_of_getLast? last) with eq | eq
    · rw [eq] at stays
      simp [Choice.take] at stays
    · rw [eq] at comes
      exact comes rfl

end ProgressiveReviewer.Library
