/-!
# The end of a text

Text that is written out ends at its first NUL. What stands behind the NUL is not shown, not even
the line break of a line that has one in it.
-/

namespace SeismicTree.Text

/-- The characters of a text up to its first NUL. -/
def untilNul (text : String) : List Char := text.toList.takeWhile (· ≠ '\x00')

def shown (text : String) : String := String.ofList (untilNul text)

theorem untilNul_of_not_mem {text : String} (h : '\x00' ∉ text.toList) :
    untilNul text = text.toList := by
  have hall : ∀ c ∈ text.toList, decide (c ≠ '\x00') = true := by
    intro c hc
    have hne : c ≠ '\x00' := fun heq => h (heq ▸ hc)
    exact decide_eq_true hne
  have happend : (text.toList ++ []).takeWhile (· ≠ '\x00') = text.toList ++ [].takeWhile _ :=
    List.takeWhile_append_of_pos hall
  rwa [List.append_nil, List.takeWhile_nil, List.append_nil] at happend

/-- A text without a NUL is shown as it is. -/
theorem shown_of_not_mem {text : String} (h : '\x00' ∉ text.toList) : shown text = text := by
  rw [shown, untilNul_of_not_mem h, String.ofList_toList]

end SeismicTree.Text
