import Mathlib.Data.List.DropRight
import Mathlib.Data.List.TakeWhile
import Recalc.Text.Basic

/-!
# Cutting and trimming

Blanks at the ends of a text do not survive trimming, wherever they come from, and trimming adds nothing.
Cutting at a character stops at its first occurrence.
-/

namespace Recalc.Text

/-- The characters of a trimmed text: those that are left when blanks are dropped at either end. -/
theorem toList_trim (s : String) :
    (trim s).toList = (s.toList.dropWhile isBlank).rdropWhile isBlank := by
  simp [trim, List.rdropWhile]

/-- Texts are trimmed alike if they are the same without the blanks at their ends. -/
theorem trim_congr {s t : String} (h : (s.toList.dropWhile isBlank).rdropWhile isBlank =
    (t.toList.dropWhile isBlank).rdropWhile isBlank) : trim s = trim t := by
  rw [← String.ofList_toList (s := trim s), ← String.ofList_toList (s := trim t), toList_trim,
    toList_trim, h]

/-- A blank in front is trimmed away. -/
theorem trim_cons {c : Char} (hc : isBlank c = true) (cs : List Char) :
    trim (String.ofList (c :: cs)) = trim (String.ofList cs) := by
  apply trim_congr
  simp [hc]

/-- A blank at the end is trimmed away. -/
theorem trim_concat {c : Char} (hc : isBlank c = true) (cs : List Char) :
    trim (String.ofList (cs ++ [c])) = trim (String.ofList cs) := by
  apply trim_congr
  simp only [String.toList_ofList]
  rw [List.dropWhile_append]
  split_ifs with hempty
  · rw [List.isEmpty_iff] at hempty
    rw [hempty]
    simp [hc]
  · exact List.rdropWhile_concat_pos isBlank _ c hc

/-- A trimmed text has no blanks at its ends. -/
theorem trim_trim (s : String) : trim (trim s) = trim s := by
  apply trim_congr
  rw [toList_trim]
  set core := s.toList.dropWhile isBlank with hcore
  have hinitial : core.rdropWhile isBlank <+: core := List.rdropWhile_prefix isBlank core
  -- What is left starts as the text without its leading blanks does.
  have hhead : (core.rdropWhile isBlank).dropWhile isBlank = core.rdropWhile isBlank := by
    rw [List.dropWhile_eq_self_iff]
    intro hlength
    have hstart := List.dropWhile_eq_self_iff.1 (List.dropWhile_idempotent isBlank s.toList)
    rw [← hcore] at hstart
    rw [hinitial.getElem hlength]
    exact hstart (hlength.trans_le hinitial.length_le)
  rw [hhead, List.rdropWhile_idempotent]

/-- A trimmed text has characters of the text only. -/
theorem mem_of_mem_trim {s : String} {c : Char} (h : c ∈ (trim s).toList) : c ∈ s.toList := by
  rw [toList_trim] at h
  exact (List.dropWhile_sublist isBlank).subset ((List.rdropWhile_prefix isBlank _).subset h)

/-- The part before the first occurrence of a character is without it. -/
theorem not_mem_of_cut? {c : Char} {s before after : String}
    (h : cut? c s = some (before, after)) : c ∉ before.toList := by
  unfold cut? at h
  dsimp only at h
  split_ifs at h
  obtain ⟨rfl, -⟩ := Prod.mk.inj (Option.some.inj h)
  intro hmem
  rw [String.toList_ofList] at hmem
  simpa using List.mem_takeWhile_imp hmem

/-- A text is cut at the first occurrence of the character. -/
theorem cut?_append {c : Char} {before : List Char} (h : c ∉ before) (after : List Char) :
    cut? c (String.ofList (before ++ c :: after)) =
      some (String.ofList before, String.ofList after) := by
  have hbefore : ∀ a ∈ before, decide (a ≠ c) = true := fun a ha => by
    simpa using fun hac : a = c => h (hac ▸ ha)
  unfold cut?
  simp only [String.toList_ofList]
  rw [if_pos (by simp), List.takeWhile_append_of_pos hbefore, List.dropWhile_append_of_pos hbefore]
  simp

/-- A blank in front of a text does not change its trimmed pieces. -/
theorem pieces_cons {p : Char → Bool} {c : Char} (hp : p c = false) (hc : isBlank c = true)
    (cs : List Char) :
    (pieces p (String.ofList (c :: cs))).map trim = (pieces p (String.ofList cs)).map trim := by
  -- The blank becomes part of the first piece, and trimming takes it away.
  obtain ⟨piece, rest, hsplit⟩ := List.exists_cons_of_ne_nil (List.splitOnP_ne_nil p cs)
  unfold pieces
  simp only [String.toList_ofList]
  rw [List.splitOnP_cons_eq_if_modifyHead, hp, if_neg Bool.false_ne_true, hsplit]
  simp only [List.modifyHead_cons, List.map_cons, trim_cons hc]

end Recalc.Text
