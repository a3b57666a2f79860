import MarkupSelect.Text.Blank

/-!
# Trimming

A text is the blanks at its ends around its trimmed form, which begins and ends with characters that
are no blanks, unless there is nothing in it.
-/

namespace MarkupSelect.Text

variable {before cs ds after : List Char}

/-! ### The ends of a text -/

/-- A text that is not empty, with what its first and its last character are like. -/
structure Ends (First Last : Char → Prop) (cs : List Char) : Prop where
  first : ∃ c, cs.head? = some c ∧ First c
  last : ∃ c, cs.getLast? = some c ∧ Last c

namespace Ends

variable {P P' Q Q' : Char → Prop}

/-- The ends of a text may be known better than they need to be. -/
theorem mono (h : Ends P Q cs) (hfirst : ∀ c, P c → P' c) (hlast : ∀ c, Q c → Q' c) :
    Ends P' Q' cs := by
  obtain ⟨c, hc, hP⟩ := h.first
  obtain ⟨d, hd, hQ⟩ := h.last
  exact ⟨⟨c, hc, hfirst c hP⟩, ⟨d, hd, hlast d hQ⟩⟩

/-- A text with ends is not empty. -/
theorem ne_nil (h : Ends P Q cs) : cs ≠ [] := by
  rintro rfl
  obtain ⟨c, hc, -⟩ := h.first
  contradiction

/-- Texts in a row begin as the first and end as the last. -/
theorem append (h : Ends P Q cs) (gap : List Char) (hds : Ends P' Q' ds) :
    Ends P Q' (cs ++ gap ++ ds) := by
  obtain ⟨c, hc, hfirst⟩ := h.first
  obtain ⟨d, hd, hlast⟩ := hds.last
  constructor
  · exact ⟨c, by rw [List.append_assoc, List.head?_append, hc, Option.some_or], hfirst⟩
  · exact ⟨d, by rw [List.getLast?_append, hd, Option.some_or], hlast⟩

/-- What holds of all characters holds of those at the ends. -/
theorem of_forall (hne : cs ≠ []) (h : ∀ c ∈ cs, P c) : Ends P P cs :=
  ⟨⟨_, List.head?_eq_some_head hne, h _ (List.head_mem hne)⟩,
    ⟨_, List.getLast?_eq_some_getLast hne, h _ (List.getLast_mem hne)⟩⟩

end Ends

/-- A text that is not empty and has no blank at either end. -/
def IsTrimmed (cs : List Char) : Prop := Ends (isBlank · = false) (isBlank · = false) cs

/-! ### Trimming -/

/-- Blanks at the beginning are trimmed. -/
theorem trimStart_append (h : ∀ c ∈ before, isBlank c = true) (cs : List Char) :
    trimStart (before ++ cs) = trimStart cs :=
  List.dropWhile_append_of_pos h

/-- Blanks at the end are trimmed. -/
theorem trimEnd_append (cs : List Char) (h : ∀ c ∈ after, isBlank c = true) :
    trimEnd (cs ++ after) = trimEnd cs := by
  have hreverse : ∀ c ∈ after.reverse, isBlank c = true := fun c hc ↦ h c (List.mem_reverse.mp hc)
  rw [trimEnd, List.reverse_append, List.dropWhile_append_of_pos hreverse, ← trimEnd]

/-- A text that does not begin with a blank has nothing to be trimmed there. -/
theorem trimStart_of_head? (h : ∃ c, cs.head? = some c ∧ isBlank c = false) :
    trimStart cs = cs := by
  cases cs with
  | nil => rfl
  | cons c cs =>
    have hc : isBlank c = false := by simpa using h
    rw [trimStart, List.dropWhile_cons_of_neg (by simp [hc])]

/-- A text that does not end with a blank has nothing to be trimmed there. -/
theorem trimEnd_of_getLast? (h : ∃ c, cs.getLast? = some c ∧ isBlank c = false) :
    trimEnd cs = cs := by
  have hreverse : trimStart cs.reverse = cs.reverse := by
    apply trimStart_of_head?
    simpa using h
  rw [trimEnd, ← trimStart, hreverse, List.reverse_reverse]

/-- Trimming takes the blanks away and leaves what is trimmed. -/
theorem IsTrimmed.trim_append (h : IsTrimmed cs) (hbefore : ∀ c ∈ before, isBlank c = true)
    (hafter : ∀ c ∈ after, isBlank c = true) : trim (before ++ cs ++ after) = cs := by
  have hfirst : ∃ c, (cs ++ after).head? = some c ∧ isBlank c = false := by
    obtain ⟨c, hc, hblank⟩ := h.first
    exact ⟨c, by rw [List.head?_append, hc, Option.some_or], hblank⟩
  rw [trim, List.append_assoc, trimStart_append hbefore, trimStart_of_head? hfirst,
    trimEnd_append cs hafter, trimEnd_of_getLast? h.last]

/-- What is trimmed is its own trimmed form. -/
theorem IsTrimmed.trim_eq (h : IsTrimmed cs) : trim cs = cs := by
  simpa using h.trim_append (List.forall_mem_nil _) (List.forall_mem_nil _)

private theorem exists_trimStart (cs : List Char) :
    ∃ before, (∀ c ∈ before, isBlank c = true) ∧ cs = before ++ trimStart cs :=
  ⟨cs.takeWhile isBlank, List.all_eq_true.mp List.all_takeWhile,
    List.takeWhile_append_dropWhile.symm⟩

private theorem exists_trimEnd (cs : List Char) :
    ∃ after, (∀ c ∈ after, isBlank c = true) ∧ cs = trimEnd cs ++ after := by
  obtain ⟨after, hafter, hsplit⟩ := exists_trimStart cs.reverse
  refine ⟨after.reverse, fun c hc ↦ hafter c (List.mem_reverse.mp hc), ?_⟩
  rw [trimEnd, ← trimStart, ← List.reverse_append, ← hsplit, List.reverse_reverse]

/-- A text is its trimmed form with blanks around it. -/
theorem exists_trim (cs : List Char) :
    ∃ before after, (∀ c ∈ before, isBlank c = true) ∧ (∀ c ∈ after, isBlank c = true) ∧
      cs = before ++ trim cs ++ after := by
  obtain ⟨before, hbefore, hstart⟩ := exists_trimStart cs
  obtain ⟨after, hafter, hend⟩ := exists_trimEnd (trimStart cs)
  refine ⟨before, after, hbefore, hafter, ?_⟩
  rw [trim, List.append_assoc, ← hend, ← hstart]

/-- Nothing is left of a text exactly if all of it is blank. -/
theorem trim_eq_nil_iff : trim cs = [] ↔ ∀ c ∈ cs, isBlank c = true := by
  constructor
  · intro h
    obtain ⟨before, after, hbefore, hafter, hcs⟩ := exists_trim cs
    rw [hcs, h, List.append_nil]
    exact List.forall_mem_append.mpr ⟨hbefore, hafter⟩
  · intro h
    have hstart := trimStart_append h []
    rw [List.append_nil] at hstart
    rw [trim, hstart]
    rfl

/-- The trimmed form of a text that is not blank is trimmed. -/
theorem isTrimmed_trim (h : trim cs ≠ []) : IsTrimmed (trim cs) := by
  obtain ⟨after, -, hend⟩ := exists_trimEnd (trimStart cs)
  obtain ⟨c, rest, hc⟩ := List.exists_cons_of_ne_nil h
  have hstart : trimStart cs = c :: (rest ++ after) := by
    rw [hend, ← trim, hc, List.cons_append]
  have hreverse : trimStart (trimStart cs).reverse = (trim cs).reverse := by
    rw [trim, trimEnd, List.reverse_reverse, trimStart]
  constructor
  · exact ⟨c, by rw [hc, List.head?_cons], isBlank_head_trimStart hstart⟩
  · obtain ⟨d, ds, hd⟩ := List.exists_cons_of_ne_nil (List.reverse_ne_nil_iff.mpr h)
    refine ⟨d, ?_, isBlank_head_trimStart (hreverse.trans hd)⟩
    rw [← List.head?_reverse, hd, List.head?_cons]

/-- A trimmed text ends with the last character that is no blank. -/
theorem getLast?_trim (cs : List Char) :
    (trim cs).getLast? = cs.reverse.find? fun c ↦ !isBlank c := by
  obtain ⟨before, after, hbefore, hafter, hcs⟩ := exists_trim cs
  have hblanks : ∀ ds : List Char, (∀ c ∈ ds, isBlank c = true) →
      ds.reverse.find? (fun c ↦ !isBlank c) = none := by
    intro ds hds
    rw [List.find?_eq_none]
    intro c hc
    simp [hds c (List.mem_reverse.mp hc)]
  have hreverse : cs.reverse = after.reverse ++ ((trim cs).reverse ++ before.reverse) := by
    rw [← List.reverse_append, ← List.reverse_append, ← hcs]
  rw [hreverse, List.find?_append, List.find?_append, hblanks after hafter, hblanks before hbefore,
    Option.none_or, Option.or_none]
  by_cases hne : trim cs = []
  · rw [hne]
    rfl
  · obtain ⟨d, hd, hblank⟩ := (isTrimmed_trim hne).last
    obtain ⟨rest, hrest⟩ := List.getLast?_eq_some_iff.mp hd
    rw [hd, hrest, List.reverse_append]
    simp [hblank]

end MarkupSelect.Text
