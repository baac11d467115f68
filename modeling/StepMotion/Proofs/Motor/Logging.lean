import StepMotion.Motor.Logged
import StepMotion.Proofs.Motor.Traced
import StepMotion.Proofs.Text.Words

/-! What a log tells. A logged backend answers as the one inside, and its log has a line for every
segment that was offered to it, taken or not, which lists the axes that the segment moves. -/
namespace StepMotion.Logged

open MotorBackend Text

section Morphisms

variable {β : Type} [MotorBackend β]

theorem inner_morphism : Morphism (inner : Logged β → β) where
  enqueue segment logged := by
    generalize hanswer : enqueue segment logged.inner = answer
    obtain ⟨outcome, state⟩ := answer
    simp only [enqueue, hanswer]
    cases outcome <;> rfl
  enable on logged := rfl
  waitEmpty logged := by
    generalize hanswer : waitEmpty logged.inner = answer
    obtain ⟨outcome, state⟩ := answer
    simp only [waitEmpty, hanswer]
    cases outcome <;> rfl

def log (offered : List Segment) : List String :=
  offered.zipIdx.map fun entry => line entry.2 entry.1

theorem log_concat (offered : List Segment) (segment : Segment) :
    log (offered ++ [segment]) = log offered ++ [line offered.length segment] := by
  simp [log, List.zipIdx_append]

def ofTraced (traced : Traced β) : Logged β := ⟨traced.inner, (log traced.offered).toArray⟩

theorem ofTraced_morphism : Morphism (ofTraced : Traced β → Logged β) where
  enqueue segment traced := by
    have hoffered : (enqueue segment traced).state.offered = traced.offered ++ [segment] := by
      simp [Traced.offered, calls_enqueue, MotorCall.offered?]
    have hlines : (log (traced.offered ++ [segment])).toArray =
        (log traced.offered).toArray.push (line traced.offered.length segment) := by
      rw [log_concat, List.push_toArray]
    have hsize : (log traced.offered).toArray.size = traced.offered.length := by simp [log]
    simp only [Attempt.map, ofTraced, hoffered, hlines]
    generalize hanswer : enqueue segment traced.inner = answer
    obtain ⟨outcome, state⟩ := answer
    simp only [enqueue, hanswer, hsize]
    cases outcome <;> rfl
  enable on traced := by
    have hoffered : (enable on traced).offered = traced.offered := by
      simp [Traced.offered, calls_enable, MotorCall.offered?]
    simp only [ofTraced, hoffered]
    rfl
  waitEmpty traced := by
    have hoffered : (waitEmpty traced).state.offered = traced.offered := by
      simp [Traced.offered, calls_waitEmpty, MotorCall.offered?]
    simp only [Attempt.map, ofTraced, hoffered]
    generalize hanswer : waitEmpty traced.inner = answer
    obtain ⟨outcome, state⟩ := answer
    simp only [waitEmpty, hanswer]
    cases outcome <;> rfl

end Morphisms

section Lines

theorem solid_letter (axis : Axis) : Solid axis.letter.toString.toList := by
  cases axis <;> decide

def stepWordsOf (segment : Segment) : List String :=
  (Axis.all.filter fun axis => segment.steps axis ≠ 0).map fun axis =>
    axis.letter.toString ++ "=" ++ toString (segment.steps axis)

theorem isWord_of_mem_stepWordsOf {segment : Segment} {word : List Char}
    (h : word ∈ (stepWordsOf segment).map String.toList) : IsWord word := by
  simp only [stepWordsOf, List.map_map, List.mem_map, Function.comp_apply,
    Int.toString_eq_repr, String.toList_append] at h
  obtain ⟨axis, -, rfl⟩ := h
  constructor
  · exact List.append_ne_nil_of_left_ne_nil
      (List.append_ne_nil_of_right_ne_nil _ (by decide)) _
  · exact ((solid_letter axis).append (by decide)).append (solid_intRepr _)

/-- A line has its number, a word for each axis that moves, in register order, and the speeds. -/
def lineWords (number : Nat) (segment : Segment) : List String :=
  ["#" ++ toString number] ++ stepWordsOf segment ++
    ["v0=" ++ Decimal.fixed 1 segment.v0, "v1=" ++ Decimal.fixed 1 segment.v1, "steps/s"]

theorem words_line (number : Nat) (segment : Segment) :
    Text.words (line number segment).toList = (lineWords number segment).map String.toList := by
  have hnumber : IsWord ("#" ++ toString number).toList := by
    rw [String.toList_append, Nat.toString_eq_repr]
    exact isWord_cons (by decide) (solid_repr number)
  have hspeed : ∀ (name : String) (speed : Float), IsWord name.toList →
      IsWord (name ++ Decimal.fixed 1 speed).toList := by
    intro name speed hname
    rw [String.toList_append]
    exact ⟨by simp [hname.ne_nil], hname.solid.append (solid_fixed 1 speed)⟩
  have hsteps : (segment.stepWords fun axis steps => s!"{axis.name}={steps}") =
      " ".intercalate (stepWordsOf segment) := rfl
  have hline : (line number segment).toList =
      ("#" ++ toString number).toList ++
        (List.replicate (5 - (toString number).length) ' ' ++ ' ' ::
          ([' '].intercalate ((stepWordsOf segment).map String.toList) ++ ' ' ::
            (("v0=" ++ Decimal.fixed 1 segment.v0).toList ++ ' ' ::
              (("v1=" ++ Decimal.fixed 1 segment.v1).toList ++ ' ' :: "steps/s".toList)))) := by
    unfold line
    dsimp only
    rw [hsteps]
    simp [alignLeft, toList_pushn]
  have hwords : ∀ part ∈ (stepWordsOf segment).map String.toList, IsWord part :=
    fun part hpart => isWord_of_mem_stepWordsOf hpart
  rw [hline, words_word_blanks hnumber, words_intercalate_blank hwords,
    words_word_blank (hspeed _ _ ⟨by decide, by decide⟩),
    words_word_blank (hspeed _ _ ⟨by decide, by decide⟩), words_word ⟨by decide, by decide⟩]
  simp [lineWords]

theorem words_log (offered : List Segment) :
    (log offered).map (fun line => Text.words line.toList) =
      offered.zipIdx.map fun entry => (lineWords entry.2 entry.1).map String.toList := by
  rw [log, List.map_map]
  refine List.map_congr_left fun entry _ => ?_
  rw [Function.comp_apply, words_line]

end Lines

end StepMotion.Logged
