import Mathlib.Data.List.TakeWhile
import Offside.Diagnostic.Rendering

/-!
Where the caret stands. The column of a failure counts the characters of its line, blanks at the
start included, while the caret is placed by bytes under a line that is printed without them. The
main statement is that both mean the same character.
-/

namespace Offside

namespace Text

theorem splitAtByteFrom_eq (read : List Char) (n : Nat) (text : List Char) :
    splitAtByteFrom read n text =
      (read.reverse ++ (splitAtByte n text).1, (splitAtByte n text).2) := by
  induction text generalizing read n with
  | nil => simp [splitAtByte, splitAtByteFrom]
  | cons c text ih =>
    rw [splitAtByte, splitAtByteFrom, splitAtByteFrom]
    split
    · rw [ih, ih [c], List.reverse_cons, List.append_assoc]
      rfl
    · rw [List.reverse_nil, List.append_nil]

theorem splitAtByte_cons (n : Nat) (c : Char) (text : List Char) :
    (splitAtByte n (c :: text)).1 =
      if c.utf8Size ≤ n then c :: (splitAtByte (n - c.utf8Size) text).1 else [] := by
  rw [splitAtByte, splitAtByteFrom]
  split
  · rw [splitAtByteFrom_eq]
    rfl
  · rfl

theorem splitAtByte_zero (text : List Char) : (splitAtByte 0 text).1 = [] := by
  cases text with
  | nil => rfl
  | cons c text => rw [splitAtByte_cons, if_neg (Nat.not_le.2 c.utf8Size_pos)]

theorem splitAtByte_front (n : Nat) (text : List Char) : (splitAtByte n text).1 <+: text :=
  ⟨_, splitAtByte_append n text⟩

/-- Without a first part of the text there are as many characters fewer before a byte. -/
theorem length_splitAtByte_append (n : Nat) (a b : List Char) :
    (splitAtByte (n - byteLength a) b).1.length = (splitAtByte n (a ++ b)).1.length - a.length := by
  induction a generalizing n with
  | nil => rfl
  | cons c a ih =>
    rw [List.cons_append, splitAtByte_cons, byteLength_cons]
    split
    · rw [List.length_cons, List.length_cons, Nat.add_sub_add_right, ← ih, Nat.sub_sub]
    · rw [Nat.sub_eq_zero_of_le (by omega), splitAtByte_zero, List.length_nil, Nat.zero_sub]

theorem mem_of_mem_dropEndWhile {p : Char → Bool} {c : Char} {text : List Char}
    (h : c ∈ dropEndWhile p text) : c ∈ text := by
  have hmem := (List.dropWhile_sublist p).subset (List.mem_reverse.1 h)
  exact List.mem_reverse.1 hmem

end Text

namespace Diagnostic

open Text

variable {d : Diagnostic} {line : List Char} {offset : Nat}

/-- The line as it is printed, but for blanks at its end. -/
def shownLine (line : List Char) : List Char := line.dropWhile isBlank

/-- How many characters of the line are not printed. -/
def margin (line : List Char) : Nat := (line.takeWhile isBlank).length

theorem caretLines_eq (line : List Char) (offset : Nat) :
    caretLines line offset =
      (dropEndWhile isBlank (shownLine line),
        caretPadding (splitAtByte (offset - byteLength (line.takeWhile isBlank))
          (shownLine line)).1.dropLast) := by
  have hbytes : byteLength line =
      byteLength (line.takeWhile isBlank) + byteLength (line.dropWhile isBlank) := by
    rw [← byteLength_append, List.takeWhile_append_dropWhile]
  unfold caretLines shownLine
  dsimp only
  rw [hbytes, Nat.add_sub_cancel]

theorem column_eq (h : d.errorLine? = some (line, offset)) :
    d.column? = some (max 1 (splitAtByte offset line).1.length) := by
  rw [column?, h]
  rfl

/-- There is a blank for each character between the margin and the column. -/
theorem length_padding {column : Nat} (h : d.errorLine? = some (line, offset))
    (hcolumn : d.column? = some column) :
    (caretLines line offset).2.length = column - margin line - 1 := by
  obtain rfl := Option.some.inj ((column_eq h).symm.trans hcolumn)
  have hsplit := length_splitAtByte_append offset (line.takeWhile isBlank) (shownLine line)
  rw [shownLine, List.takeWhile_append_dropWhile] at hsplit
  rw [caretLines_eq, caretPadding, List.length_map, List.length_dropLast, shownLine, hsplit, margin]
  omega

/-- It is the tab, where that character is one. -/
theorem getElem?_padding {i : Nat} (hi : i < (caretLines line offset).2.length) :
    (caretLines line offset).2[i]? =
      some (if (shownLine line)[i]? = some '\t' then '\t' else ' ') := by
  rw [caretLines_eq] at hi ⊢
  dsimp only at hi ⊢
  have hfront := (List.dropLast_prefix _).trans
    (splitAtByte_front (offset - byteLength (line.takeWhile isBlank)) (shownLine line))
  generalize (splitAtByte (offset - byteLength (line.takeWhile isBlank))
    (shownLine line)).1.dropLast = before at hi hfront
  rw [caretPadding, List.length_map] at hi
  obtain ⟨after, hafter⟩ := hfront
  rw [caretPadding, List.getElem?_map, ← hafter, List.getElem?_append_left hi,
    List.getElem?_eq_getElem hi, Option.map_some]
  simp only [Option.some.injEq]

theorem feed_not_mem_errorLine (h : d.errorLine? = some (line, offset)) : '\n' ∉ line := by
  have hcut : ∀ text : List Char, '\n' ∉ text.takeWhile (· != '\n') := fun text hmem =>
    absurd (List.mem_takeWhile_imp hmem) (by decide)
  obtain ⟨text, -, hline⟩ := Option.map_eq_some_iff.1 h
  generalize splitText d.offset text.toList = cut at hline
  obtain ⟨before, after⟩ := cut
  obtain ⟨rfl, -⟩ := Prod.mk.inj hline
  intro hmem
  rcases List.mem_append.1 (mem_of_mem_dropEndWhile hmem) with hleft | hright
  · exact hcut _ (List.mem_reverse.1 hleft)
  · exact hcut _ hright

theorem feed_not_mem_caretLines (h : d.errorLine? = some (line, offset)) :
    '\n' ∉ (caretLines line offset).1 ∧ '\n' ∉ (caretLines line offset).2 := by
  rw [caretLines_eq]
  refine ⟨fun hmem => ?_, fun hmem => ?_⟩
  · have hshown := (List.dropWhile_sublist _).subset (mem_of_mem_dropEndWhile hmem)
    exact feed_not_mem_errorLine h hshown
  · obtain ⟨c, -, hc⟩ := List.mem_map.1 hmem
    split at hc <;> cases hc

/-- What is said behind the caret stands on one line. -/
theorem feed_not_mem_verdict (d : Diagnostic) :
    '\n' ∉ d.category.toList ++ (": ".toList ++ d.message.toList) := by
  have hcategory : '\n' ∉ d.category.toList := by
    unfold category
    split
    · decide
    · cases d.kind <;> decide
  have hmessage : '\n' ∉ d.message.toList := by
    unfold message
    cases d.kind with
    | unexpectedToken =>
      dsimp only
      split
      · decide
      · split
        · decide
        · split <;> decide
    | _ =>
      dsimp only
      decide
  simp only [List.mem_append, not_or]
  exact ⟨hcategory, by decide, hmessage⟩

/-- The caret stands under the character of the line that the column counts, on the line before the
last one. The column counts the characters of the whole line, of which the blanks at its start are
not printed, and tabs stay tabs. -/
theorem render_caret (h : d.errorLine? = some (line, offset)) :
    ∃ place shown padding verdict column,
      d.render.toList =
        place ++ ("\n    ".toList ++ shown) ++ ("\n    ".toList ++ padding ++ ['^']) ++
          ('\n' :: verdict) ++ ['\n'] ∧
      '\n' ∉ shown ∧ '\n' ∉ padding ∧ '\n' ∉ verdict ∧
      shown = dropEndWhile isBlank (shownLine line) ∧
      d.column? = some column ∧ padding.length = column - margin line - 1 ∧
      ∀ i < padding.length,
        padding[i]? = some (if (shownLine line)[i]? = some '\t' then '\t' else ' ') := by
  obtain ⟨hshown, hpadding⟩ := feed_not_mem_caretLines h
  have hcolumn := column_eq h
  refine ⟨("  File \"" ++ d.filename ++ "\", line " ++ toString d.line).toList,
    (caretLines line offset).1, (caretLines line offset).2,
    d.category.toList ++ (": ".toList ++ d.message.toList), _, ?_, hshown, hpadding,
    feed_not_mem_verdict d, by rw [caretLines_eq], hcolumn, length_padding h hcolumn,
    fun i hi => getElem?_padding hi⟩
  unfold render renderWith painted
  rw [h]
  simp [String.toList_append]

/-- A bracket is refused on the second line, behind a margin, an accent of two bytes and a tab. -/
def refusedBracket : Diagnostic :=
  ⟨.unexpectedToken, "deck", 2, 10, some "x\n  é\t= )\n", none, none⟩

theorem errorLine?_refusedBracket :
    refusedBracket.errorLine? = some ("  é\t= )".toList, 8) := by
  decide +kernel

theorem render_caret_refusedBracket :
    ∃ place shown padding verdict column,
      refusedBracket.render.toList =
        place ++ ("\n    ".toList ++ shown) ++ ("\n    ".toList ++ padding ++ ['^']) ++
          ('\n' :: verdict) ++ ['\n'] ∧
      '\n' ∉ shown ∧ '\n' ∉ padding ∧ '\n' ∉ verdict ∧
      shown = dropEndWhile isBlank (shownLine "  é\t= )".toList) ∧
      refusedBracket.column? = some column ∧
      padding.length = column - margin "  é\t= )".toList - 1 ∧
      ∀ i < padding.length,
        padding[i]? =
          some (if (shownLine "  é\t= )".toList)[i]? = some '\t' then '\t' else ' ') :=
  render_caret errorLine?_refusedBracket

/-- The caret is below the bracket, the last of five characters. -/
example : (caretLines "  é\t= )".toList 8).2 = " \t  ".toList := by decide +kernel

end Diagnostic
end Offside
