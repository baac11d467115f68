import Mathlib
import StepMotion.Decimal.Fixed
import StepMotion.Text.Blank
import StepMotion.Text.Pad

/-! Texts made of words. A text that has its words with blanks between them falls into the same
words when it is cut at its blanks. -/
namespace StepMotion

namespace Text

def Solid (cs : List Char) : Prop := ∀ c ∈ cs, isBlank c = false

instance (cs : List Char) : Decidable (Solid cs) :=
  List.decidableBAll (isBlank · = false) cs

structure IsWord (cs : List Char) : Prop where
  ne_nil : cs ≠ []
  solid : Solid cs

theorem Solid.append {cs ds : List Char} (hcs : Solid cs) (hds : Solid ds) : Solid (cs ++ ds) :=
  List.forall_mem_append.mpr ⟨hcs, hds⟩

theorem isWord_cons {c : Char} {cs : List Char} (hc : isBlank c = false) (hcs : Solid cs) :
    IsWord (c :: cs) :=
  ⟨List.cons_ne_nil c cs, List.forall_mem_cons.mpr ⟨hc, hcs⟩⟩

section Words

theorem words_blank_cons {c : Char} (hc : isBlank c = true) (cs : List Char) :
    words (c :: cs) = words cs := by
  have hsplit := List.splitOnP_append_cons_of_forall_mem (List.forall_mem_nil _) c hc cs
  rw [List.nil_append] at hsplit
  rw [words, hsplit, List.filter_cons_of_neg (by simp)]
  rfl

theorem ne_nil_of_mem_words {cs word : List Char} (h : word ∈ words cs) : word ≠ [] := by
  simpa using List.of_mem_filter h

theorem words_eq_nil_iff {cs : List Char} : words cs = [] ↔ ∀ c ∈ cs, isBlank c = true := by
  induction cs with
  | nil => exact iff_of_true rfl (List.forall_mem_nil _)
  | cons c cs ih =>
    rw [List.forall_mem_cons]
    by_cases hc : isBlank c = true
    · rw [words_blank_cons hc, ih]
      exact (and_iff_right hc).symm
    · obtain ⟨first, rest, hsplit⟩ := List.exists_cons_of_ne_nil (List.splitOnP_ne_nil isBlank cs)
      have hword : words (c :: cs) = (c :: first) :: rest.filter (· ≠ []) := by
        rw [words, List.splitOnP_cons_eq_if_modifyHead, if_neg hc, hsplit]
        rfl
      simp [hword, hc]

theorem words_blanks_append (count : Nat) (cs : List Char) :
    words (List.replicate count ' ' ++ cs) = words cs := by
  induction count with
  | zero => rfl
  | succ count ih =>
    rw [List.replicate_succ, List.cons_append, words_blank_cons rfl, ih]

theorem words_word {word : List Char} (h : IsWord word) : words word = [word] := by
  rw [words, List.splitOnP_eq_singleton h.solid, List.filter_cons_of_pos (by simp [h.ne_nil])]
  rfl

theorem words_word_blank {word : List Char} (h : IsWord word) (cs : List Char) :
    words (word ++ ' ' :: cs) = word :: words cs := by
  rw [words, List.splitOnP_append_cons_of_forall_mem h.solid ' ' rfl cs,
    List.filter_cons_of_pos (by simp [h.ne_nil])]
  rfl

theorem words_word_blanks {word : List Char} (h : IsWord word) (count : Nat) (cs : List Char) :
    words (word ++ (List.replicate count ' ' ++ ' ' :: cs)) = word :: words cs := by
  have hturn : List.replicate count ' ' ++ ' ' :: cs = ' ' :: (List.replicate count ' ' ++ cs) := by
    rw [List.append_cons, ← List.replicate_succ']
    rfl
  rw [hturn, words_word_blank h, words_blanks_append]

/-- Words that are joined by blanks are told apart again. -/
theorem words_intercalate_blank {parts : List (List Char)} (h : ∀ part ∈ parts, IsWord part)
    (cs : List Char) : words ([' '].intercalate parts ++ ' ' :: cs) = parts ++ words cs := by
  induction parts with
  | nil => exact words_blank_cons rfl cs
  | cons part rest ih =>
    have hpart := h part List.mem_cons_self
    have hrest := ih fun other hother => h other (List.mem_cons_of_mem _ hother)
    cases rest with
    | nil => exact (congrArg words (by simp [List.intercalate])).trans (words_word_blank hpart cs)
    | cons other others =>
      have hjoin : [' '].intercalate (part :: other :: others) =
          part ++ ' ' :: [' '].intercalate (other :: others) := by
        simp [List.intercalate]
      rw [hjoin, List.append_assoc, List.cons_append, words_word_blank hpart, hrest]
      rfl

end Words

section Numbers

theorem toList_pushn (text : String) (c : Char) (count : Nat) :
    (text.pushn c count).toList = text.toList ++ List.replicate count c := by
  rw [String.pushn_eq_repeat_push]
  induction count with
  | zero => simp [Nat.repeat]
  | succ count ih => simp [Nat.repeat, ih, List.replicate_succ']

theorem isBlank_of_isDigit {c : Char} (h : c.isDigit = true) : isBlank c = false := by
  obtain ⟨hlow, hhigh⟩ := Char.isDigit_iff_toNat.mp h
  change 48 ≤ c.toNat at hlow
  change c.toNat ≤ 57 at hhigh
  simp only [isBlank, blankRanges, List.any_cons, List.any_nil, Bool.or_eq_false_iff,
    Bool.and_eq_false_iff, decide_eq_false_iff_not, and_true]
  omega

theorem solid_repr (n : Nat) : Solid n.repr.toList := by
  intro c hc
  rw [Nat.toList_repr] at hc
  exact isBlank_of_isDigit (Nat.isDigit_of_mem_toDigits (by decide) (by decide) hc)

theorem solid_intRepr (n : Int) : Solid n.repr.toList := by
  rw [Int.repr_eq_if]
  split
  · exact solid_repr _
  · rw [String.toList_append]
    exact Solid.append (by decide) (solid_repr _)

theorem solid_fixedText (places units : Nat) : Solid (Decimal.fixedText places units).toList := by
  simp only [Decimal.fixedText, Nat.toString_eq_repr]
  split
  · exact solid_repr _
  · simp only [String.toList_append, toList_pushn]
    have hzeros : ∀ count, Solid (List.replicate count '0') :=
      fun count c hc => List.eq_of_mem_replicate hc ▸ rfl
    exact (((solid_repr _).append (by decide)).append
      (hzeros _)).append (solid_repr _)

theorem solid_fixed (places : Nat) (x : Float) : Solid (Decimal.fixed places x).toList := by
  unfold Decimal.fixed
  split
  · decide
  · rw [String.toList_append]
    apply Solid.append
    · split <;> decide
    · split
      · exact solid_fixedText places _
      · decide

end Numbers

end Text
end StepMotion
