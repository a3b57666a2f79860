import MarkupSelect.Proofs.Selector.Lead

/-!
# Passages

A piece of a selector is read in the same way whatever stands behind it, if its lexemes do not
depend on that. So what the pieces of a selector are read as can be put together from one piece to
the next, up to the text between two steps or two alternatives.
-/

namespace MarkupSelect.Builder

variable {b c d : Builder} {cs ds : List Char}

/-- A builder that has read a piece of a text is another one, whatever stands before and behind the
piece. -/
def ReadsText (b : Builder) (cs : List Char) (c : Builder) : Prop :=
  ∃ lexemes, (∀ ds, Lexeme.ofText (cs ++ ds) = lexemes ++ Lexeme.ofText ds) ∧ Reads b lexemes c

/-- Reading nothing changes nothing. -/
theorem ReadsText.nil (b : Builder) : ReadsText b [] b := ⟨[], fun _ ↦ rfl, .nil b⟩

/-- Pieces are read one behind the other. -/
theorem ReadsText.append (h : ReadsText b cs c) (hs : ReadsText c ds d) :
    ReadsText b (cs ++ ds) d := by
  obtain ⟨ls, hls, hread⟩ := h
  obtain ⟨ms, hms, hreads⟩ := hs
  refine ⟨ls ++ ms, fun es ↦ ?_, hread.append hreads⟩
  rw [List.append_assoc, hls, hms, List.append_assoc]

/-- A piece is read as a text by itself. -/
theorem ReadsText.reads (h : ReadsText b cs c) : Reads b (Lexeme.ofText cs) c := by
  obtain ⟨ls, hls, hread⟩ := h
  have hself := hls []
  rw [List.append_nil, Lexeme.ofText, List.append_nil] at hself
  rwa [hself]

/-- A piece without backslashes is read character by character. -/
theorem ReadsText.of_plain (hcs : ∀ c ∈ cs, c ≠ '\\')
    (h : Reads b (cs.map fun c ↦ ⟨CharKind.ofChar c, c⟩) d) : ReadsText b cs d :=
  ⟨_, Lexeme.ofText_plain hcs, h⟩

/-- One character is read. -/
theorem ReadsText.singleton {c : Char} (hc : c ≠ '\\')
    (h : ∀ position, b.feed position ⟨CharKind.ofChar c, c⟩ = .ok d) : ReadsText b [c] d :=
  .of_plain (by simpa using hc) (.cons h (.nil d))

/-- An escaped piece is read character by character. -/
theorem ReadsText.escape {special : Char → Bool} (hback : special '\\' = true)
    (hspecial : ∀ c, special c = true → CharKind.isReserved c = true)
    (h : Reads b (cs.map (Lexeme.ofEscaped special)) d) :
    ReadsText b (Text.escape special cs) d :=
  ⟨_, fun ds ↦ Lexeme.ofText_escape hback hspecial cs ds, h⟩

/-! ### Between two steps -/

private theorem kind_of_blanks (cs : List Char) :
    ∀ l ∈ cs.map fun c ↦ (⟨.space, c⟩ : Lexeme), l.kind = .space := by
  intro l hl
  obtain ⟨c, -, rfl⟩ := List.mem_map.mp hl
  rfl

private theorem ofText_gap {c : Char} (hc : CharKind.isReserved c = true) (hne : c ≠ '\\')
    (hcs : ∀ c ∈ cs, Text.isBlank c = true) (hds : ∀ c ∈ ds, Text.isBlank c = true)
    (es : List Char) : Lexeme.ofText ((cs ++ c :: ds) ++ es) =
      (cs.map (⟨.space, ·⟩) ++ ⟨.punctuation, c⟩ :: ds.map (⟨.space, ·⟩)) ++
        Lexeme.ofText es := by
  rw [List.append_assoc, Lexeme.ofText_blanks hcs, List.cons_append, Lexeme.ofText_cons hne,
    Lexeme.ofText_blanks hds, CharKind.ofChar_of_isReserved hc, List.append_assoc, List.cons_append]

/-- When the step has come to its end, these alternatives and these steps are complete. -/
def Leaves (b : Builder) (alternatives : List Alternative) (steps : List Step) : Prop :=
  ∃ c, b.settle = .ok c ∧ c.endStep = Lead.builder ⟨alternatives, steps, .descendant⟩

section Leaves

variable {alternatives : List Alternative} {steps : List Step}

/-- Behind blanks the next step is a descendant. -/
theorem Leaves.blanks (h : b.Leaves alternatives steps) (hne : cs ≠ [])
    (hcs : ∀ c ∈ cs, Text.isBlank c = true) :
    ReadsText b cs (Lead.builder ⟨alternatives, steps, .descendant⟩) := by
  obtain ⟨c, hc, hend⟩ := h
  rw [← hend]
  exact ⟨_, Lexeme.ofText_blanks hcs, reads_blanks hc (by simpa using hne) (kind_of_blanks cs)⟩

/-- Behind a `>` the next step is a child. -/
theorem Leaves.child (h : b.Leaves alternatives steps) (hcs : ∀ c ∈ cs, Text.isBlank c = true)
    (hds : ∀ c ∈ ds, Text.isBlank c = true) :
    ReadsText b (cs ++ '>' :: ds) (Lead.builder ⟨alternatives, steps, .child⟩) := by
  obtain ⟨c, hc, hend⟩ := h
  have hpending : c.endStep.pending = .descendant := by
    rw [hend]
    rfl
  have hread := reads_child hc hpending (kind_of_blanks cs) (kind_of_blanks ds)
  rw [hend] at hread
  exact ⟨_, ofText_gap (by decide) (by decide) hcs hds, hread⟩

/-- Behind a comma the alternative is complete. -/
theorem Leaves.comma (h : b.Leaves alternatives steps) (hsteps : steps ≠ [])
    (hcs : ∀ c ∈ cs, Text.isBlank c = true) (hds : ∀ c ∈ ds, Text.isBlank c = true) :
    ReadsText b (cs ++ ',' :: ds) (Lead.builder ⟨alternatives ++ [steps], [], .descendant⟩) := by
  obtain ⟨c, hc, hend⟩ := h
  refine ⟨_, ofText_gap (by decide) (by decide) hcs hds,
    reads_comma hc ?_ (kind_of_blanks cs) (kind_of_blanks ds)⟩
  rw [endAlternative_eq_ok_iff, ← alternatives_endStep, hend]
  exact ⟨rfl, hsteps, rfl⟩

/-- At the end of the text the alternative is complete. -/
theorem Leaves.finish (h : b.Leaves alternatives steps) (hsteps : steps ≠ []) :
    b.finish = .ok (alternatives ++ [steps]) := by
  obtain ⟨c, hc, hend⟩ := h
  have hlast : c.endAlternative =
      .ok (Lead.builder ⟨alternatives ++ [steps], [], .descendant⟩) := by
    rw [endAlternative_eq_ok_iff, ← alternatives_endStep, hend]
    exact ⟨rfl, hsteps, rfl⟩
  rw [finish_eq, hc]
  change (do return (← c.endAlternative).alternatives) = _
  rw [hlast]
  rfl

/-- What ends an alternative has read its steps, and goes on behind it. -/
theorem leaves_of_endAlternative (hc : b.settle = .ok c) (hd : c.endAlternative = .ok d) :
    ∃ steps, steps ≠ [] ∧ b.Leaves c.alternatives steps ∧
      d = Lead.builder ⟨c.alternatives ++ [steps], [], .descendant⟩ := by
  obtain ⟨hpending, hsteps, rfl⟩ := endAlternative_eq_ok_iff.mp hd
  have hidle := isIdle_endStep c
  have hreading := reading_endStep_of_settle hc
  refine ⟨c.endStep.steps, hsteps, ⟨c, hc, ?_⟩, ?_⟩
  · rw [Lead.builder, ← alternatives_endStep, ← hreading, ← hidle.tag, ← hidle.predicates,
      ← hidle.classes, ← hpending]
  · rw [Lead.builder, ← hreading, ← hidle.tag, ← hidle.predicates, ← hidle.classes, ← hpending]

/-- What gives alternatives at the end of the text has read the steps of the last of them. -/
theorem leaves_of_finish (h : b.finish = .ok alternatives) :
    ∃ init steps, b.Leaves init steps ∧ steps ≠ [] ∧ alternatives = init ++ [steps] := by
  rw [finish_eq] at h
  obtain ⟨c, hc, hend⟩ := exists_of_bind h
  obtain ⟨d, hd, hresult⟩ := exists_of_bind hend
  obtain ⟨steps, hsteps, hleaves, rfl⟩ := leaves_of_endAlternative hc hd
  exact ⟨c.alternatives, steps, hleaves, hsteps, (Except.ok.inj hresult).symm⟩

end Leaves

end MarkupSelect.Builder
