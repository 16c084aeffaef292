import ProgressiveReviewer.Explore.Turn

/-! The blind first pick: on a question that is hard to reverse, the page hides the agent's
recommendation, and mixes the order of the choices, until the reviewer has picked one
(`review-explore-page/src/blind.rs`). -/

namespace ProgressiveReviewer.Explore

/-- Its Door is mixed, one-way or unknown, and a choice carries a recommendation to hide. -/
def Question.Blind (question : Question) : Prop :=
  (question.assessments.any fun assessments => assessments.door ≠ .twoWay) = true ∧
    (question.alternatives.any fun alternative => alternative.recommendation.isSome) = true

instance (question : Question) : Decidable question.Blind := inferInstanceAs (Decidable (_ ∧ _))

end ProgressiveReviewer.Explore

namespace ProgressiveReviewer.Page

open Explore

/-- A question that hides the agent's recommendation until the reviewer's first pick. -/
structure BlindQuestion where
  question : Question
  blind : question.Blind

/-- FNV-1a over the two IDs, which a later Rust release does not change. -/
def rank (question choice : String) : UInt64 :=
  (question.toUTF8.toList ++ 0xff :: choice.toUTF8.toList).foldl
    (fun hash byte => (hash ^^^ byte.toUInt64) * 0x00000100000001b3) 0xcbf29ce484222325

namespace BlindQuestion

def of (question : Question) : Option BlindQuestion :=
  if blind : question.Blind then some ⟨question, blind⟩ else none

variable (blind : BlindQuestion)

/-- The agent's alternatives in a mixed order, then None of the above. The order depends on the
IDs of the question and the alternatives only. -/
def choices : List Alternative :=
  let choices := blind.question.choices
  let rank (choice : Alternative) := rank blind.question.id choice.id
  choices.dropLast.mergeSort (fun a b => rank a ≤ rank b) ++ choices.getLast?.toList

def offers (choice : String) : Bool := (blind.question.choice choice).isSome

end BlindQuestion

/-- The first pick of one version of a question of a round. -/
structure KeptPick where
  round : String
  question : String
  version : Nat
  choice : String
  deriving DecidableEq, Repr

def KeptPick.of (kept : KeptPick) (round question : String) (version : Nat) : Bool :=
  kept.round = round && kept.question = question && kept.version = version

/-- The choices the reviewer picked first on blind questions, as one page keeps them. -/
structure FirstPicks where
  picks : List KeptPick
  /-- How many picks each round had so far. -/
  counts : String → Nat

namespace FirstPicks

/-- The most picks kept. -/
def kept : Nat := 64

def none : FirstPicks := ⟨[], fun _ => 0⟩

variable (picks : FirstPicks)

def of (round question : String) (version : Nat) : Option String :=
  (picks.picks.find? fun kept => kept.of round question version).map (·.choice)

/-- Keep a choice as the first pick of a blind question, unless it has one already. -/
def keep (round : String) (blind : BlindQuestion) (choice : String) : FirstPicks :=
  let question := blind.question
  if picks.picks.any fun kept => kept.of round question.id question.version then picks
  else
    let grown := picks.picks ++ [⟨round, question.id, question.version, choice⟩]
    { picks := grown.drop (grown.length - kept)
      counts := Function.update picks.counts round (picks.counts round + 1) }

/-- A pick that is kept stays the first pick of its version. -/
theorem of_keep {round choice : String} {blind : BlindQuestion} :
    (picks.keep round blind choice).of round blind.question.id blind.question.version =
      (picks.of round blind.question.id blind.question.version).or (some choice) := by
  have itself : (⟨round, blind.question.id, blind.question.version, choice⟩ : KeptPick).of round
      blind.question.id blind.question.version = true := by simp [KeptPick.of]
  by_cases held : picks.picks.any fun kept => kept.of round blind.question.id blind.question.version
  · simp only [keep, if_pos held, of]
    obtain ⟨pick, found⟩ := Option.isSome_iff_exists.mp (List.find?_isSome.mpr
      (List.any_eq_true.mp held))
    rw [found, Option.map_some, Option.some_or]
  · have absent : ∀ kept ∈ picks.picks,
        ¬kept.of round blind.question.id blind.question.version = true := fun kept mem here =>
      held (List.any_eq_true.mpr ⟨kept, mem, here⟩)
    have few (pick : KeptPick) : (picks.picks ++ [pick]).length - kept ≤ picks.picks.length := by
      rw [List.length_append, List.length_singleton, kept]
      omega
    simp only [keep, if_neg held, of]
    rw [List.drop_append_of_le_length (few _), List.find?_append,
      List.find?_eq_none.mpr fun kept mem => absent kept (List.mem_of_mem_drop mem),
      List.find?_eq_none.mpr absent, Option.none_or, List.find?_singleton,
      if_pos itself]
    rfl

end FirstPicks

end ProgressiveReviewer.Page
