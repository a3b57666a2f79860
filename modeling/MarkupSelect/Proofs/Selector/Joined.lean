import MarkupSelect.Proofs.Selector.Ends
import MarkupSelect.Proofs.Selector.Passage

/-!
# Selectors in a row

Two texts that are selectors make one when a comma, a `>` or blanks are put between them: behind the
separator the builder has forgotten everything but the alternatives and steps in front of it.
-/

namespace MarkupSelect.Selector

open Builder

variable {before core after text gap ds : List Char} {alternatives : List Alternative}

/-! ### Behind a lead -/

/-- All that a text leaves is a lead. -/
def Leads (text : List Char) (lead : Lead) : Prop :=
  Builder.empty.feedAll 0 (Lexeme.ofText text) = .ok lead.builder

private theorem exists_reading_of_opens {c : Char} (h : Opens c) :
    ∃ reading : Reading, reading ≠ .between ∧ ∀ (b : Builder) (position : Nat),
      b.between position ⟨CharKind.ofChar c, c⟩ = .ok { b with reading := reading } := by
  by_cases hr : CharKind.isReserved c = true
  · have hkind : CharKind.ofChar c = .punctuation := CharKind.ofChar_of_isReserved hr
    have hc := h.2 hr
    simp only [List.mem_cons, List.not_mem_nil, or_false] at hc
    rcases hc with rfl | rfl | rfl
    · exact ⟨.shorthand .identifier [], by simp, fun b position ↦ rfl⟩
    · exact ⟨.shorthand .className [], by simp, fun b position ↦ rfl⟩
    · exact ⟨.attributeName [], by simp, fun b position ↦ rfl⟩
  · refine ⟨.tagName [c], by simp, fun b position ↦ ?_⟩
    rw [between, CharKind.ofChar_of_plain (by simpa using hr) h.1]

/-- Behind a lead a selector is read as it is by itself. -/
theorem alternativesOf_append {lead : Lead} (hlead : Leads before lead)
    (hbefore : before.getLast? ≠ some '\\') (htext : HasEnds text)
    (h : alternativesOf text = .ok alternatives) :
    alternativesOf (before ++ text) = .ok (lead.join alternatives) := by
  obtain ⟨c, hc, hopens⟩ := htext.first
  obtain ⟨rest, rfl⟩ := List.head?_eq_some_iff.mp hc
  have hne : c ≠ '\\' := by
    rintro rfl
    exact absurd (hopens.2 (by decide)) (by decide)
  obtain ⟨reading, hreading, hfeed⟩ := exists_reading_of_opens hopens
  have hbegun : HasBegun { empty with reading := reading } := .inl hreading
  have hrun := follows_feedAll lead 1 (0 + (Lexeme.ofText before).length + 1)
    (Lexeme.ofText rest) hbegun
  rw [behind_opened] at hrun
  have hstart : ∀ b : Builder, b.reading = .between → ∀ position,
      b.feedAll position (⟨CharKind.ofChar c, c⟩ :: Lexeme.ofText rest) =
        { b with reading := reading }.feedAll (position + 1) (Lexeme.ofText rest) := by
    intro b hb position
    rw [feedAll, feed, hb]
    dsimp only
    rw [hfeed]
    rfl
  unfold alternativesOf at h ⊢
  rw [Lexeme.ofText_append hbefore, feedAll_append, hlead, Lexeme.ofText_cons hne]
  rw [Lexeme.ofText_cons hne, hstart empty rfl] at h
  change (do (← lead.builder.feedAll _ _).finish) = _
  rw [hstart lead.builder rfl]
  generalize feedAll _ 1 (Lexeme.ofText rest) = result at h hrun
  generalize feedAll _ _ (Lexeme.ofText rest) = other at hrun
  cases hrun with
  | ok hb => exact (finish_behind_iff lead hb).mpr ⟨_, h, rfl⟩
  | error e e' => contradiction

/-- The first step of a selector is a descendant. -/
theorem headed_of_alternativesOf (htext : HasEnds text) {a : Alternative}
    (h : alternativesOf text = .ok (a :: alternatives)) : a.headed .descendant = a := by
  -- Behind an empty lead the text is read as it is.
  have hnothing : Leads [] ⟨[], [], .descendant⟩ := rfl
  have hself := alternativesOf_append hnothing (by simp) htext h
  rw [List.nil_append, h] at hself
  exact (List.cons.inj (Except.ok.inj hself)).1.symm

/-! ### Leads -/

private theorem leads_append (htext : HasEnds text) {b : Builder}
    (hb : Builder.empty.feedAll 0 (Lexeme.ofText text) = .ok b) {lead : Lead}
    (hgap : ReadsText b gap lead.builder) : Leads (text ++ gap) lead := by
  rw [Leads, Lexeme.ofText_append htext.getLast?_ne, feedAll_append, hb]
  exact hgap.reads _

private theorem exists_leaves (h : alternativesOf text = .ok alternatives) :
    ∃ b init steps, Builder.empty.feedAll 0 (Lexeme.ofText text) = .ok b ∧
      b.Leaves init steps ∧ steps ≠ [] ∧ alternatives = init ++ [steps] := by
  obtain ⟨b, hb, hfinish⟩ := exists_of_bind h
  obtain ⟨init, steps, hleaves⟩ := leaves_of_finish hfinish
  exact ⟨b, init, steps, hb, hleaves⟩

private theorem exists_leaves_of_split {init : List Alternative} {steps : Alternative}
    (h : alternativesOf text = .ok (init ++ [steps])) :
    ∃ b, Builder.empty.feedAll 0 (Lexeme.ofText text) = .ok b ∧ b.Leaves init steps := by
  obtain ⟨b, init', steps', hb, hleaves, -, hsplit⟩ := exists_leaves h
  obtain ⟨rfl, hlast⟩ := List.append_inj' hsplit rfl
  rw [← List.singleton_inj.mp hlast] at hleaves
  exact ⟨b, hb, hleaves⟩

section Leads

variable (htext : HasEnds text) {init : List Alternative} {steps : Alternative}
  (hafter : ∀ c ∈ after, Text.isBlank c = true) (hbefore : ∀ c ∈ before, Text.isBlank c = true)

include htext hafter hbefore

/-- Behind a comma all alternatives are there already. -/
theorem leads_comma (h : alternativesOf text = .ok alternatives) :
    Leads (text ++ (after ++ ',' :: before)) ⟨alternatives, [], .descendant⟩ := by
  obtain ⟨b, init, steps, hb, hleaves, hsteps, rfl⟩ := exists_leaves h
  exact leads_append htext hb (hleaves.comma hsteps hafter hbefore)

/-- Behind a `>` the last alternative goes on with a child. -/
theorem leads_child (h : alternativesOf text = .ok (init ++ [steps])) :
    Leads (text ++ (after ++ '>' :: before)) ⟨init, steps, .child⟩ := by
  obtain ⟨b, hb, hleaves⟩ := exists_leaves_of_split h
  exact leads_append htext hb (hleaves.child hafter hbefore)

end Leads

/-- Behind blanks the last alternative goes on with a descendant. -/
theorem leads_blanks (htext : HasEnds text) {init : List Alternative} {steps : Alternative}
    (h : alternativesOf text = .ok (init ++ [steps])) (hne : gap ≠ [])
    (hgap : ∀ c ∈ gap, Text.isBlank c = true) : Leads (text ++ gap) ⟨init, steps, .descendant⟩ := by
  obtain ⟨b, hb, hleaves⟩ := exists_leaves_of_split h
  exact leads_append htext hb (hleaves.blanks hne hgap)

/-! ### Two selectors -/

variable {a b : String} {sa sb : Selector}

private theorem compile_append (separator : String) (lead : Lead) (ha : compile a = .ok sa)
    (hb : compile b = .ok sb) (hback : '\\' ∉ separator.toList)
    (hlead : ∀ core, HasEnds core → alternativesOf core = .ok sa.alternatives →
      ∀ after before, (∀ c ∈ after, Text.isBlank c = true) →
        (∀ c ∈ before, Text.isBlank c = true) →
          Leads (core ++ (after ++ (separator.toList ++ before))) lead) :
    ∃ s, compile (a ++ separator ++ b) = .ok s ∧
      s.alternatives = lead.join sb.alternatives := by
  obtain ⟨before, core, after, hcore, hbefore, hafter, hsource, hread⟩ := exists_core_of_compile ha
  obtain ⟨before', core', after', hcore', hbefore', hafter', hsource', hread'⟩ :=
    exists_core_of_compile hb
  have hgap := hlead core hcore hread after before' hafter hbefore'
  have hplain : ∀ cs : List Char, (∀ c ∈ cs, Text.isBlank c = true) → '\\' ∉ cs :=
    fun cs hcs hmem ↦ absurd (hcs _ hmem) (by decide)
  have hlast : (core ++ (after ++ (separator.toList ++ before'))).getLast? ≠ some '\\' := by
    intro h
    rw [List.getLast?_append, Option.or_eq_some_iff] at h
    rcases h with h | ⟨-, h⟩
    · have hmem := List.mem_of_getLast? h
      simp only [List.mem_append] at hmem
      rcases hmem with hmem | hmem | hmem
      · exact hplain after hafter hmem
      · exact hback hmem
      · exact hplain before' hbefore' hmem
    · exact hcore.getLast?_ne h
  have hjoined := alternativesOf_append hgap hlast hcore' hread'
  refine ⟨_, compile_of_hasEnds (hcore.append _ hcore') hbefore hafter' hjoined ?_, rfl⟩
  simp [String.toList_append, hsource, hsource']

private theorem headed_of_compile (hb : compile b = .ok sb) {a : Alternative}
    {rest : List Alternative} (h : sb.alternatives = a :: rest) : a.headed .descendant = a := by
  obtain ⟨_, core, _, hcore, -, -, -, hread⟩ := exists_core_of_compile hb
  rw [h] at hread
  exact headed_of_alternativesOf hcore hread

/-- With a comma between them two selectors make one that has the alternatives of both. -/
theorem compile_comma (ha : compile a = .ok sa) (hb : compile b = .ok sb) :
    ∃ s, compile (a ++ "," ++ b) = .ok s ∧ s.alternatives = sa.alternatives ++ sb.alternatives := by
  obtain ⟨s, hs, hjoin⟩ := compile_append "," ⟨sa.alternatives, [], .descendant⟩ ha hb (by decide)
    (fun core hcore hread after before hafter hbefore ↦ leads_comma hcore hafter hbefore hread)
  refine ⟨s, hs, ?_⟩
  rw [hjoin]
  cases hsb : sb.alternatives with
  | nil => exact (List.append_nil _).symm
  | cons a rest => rw [Lead.join, headed_of_compile hb hsb, List.nil_append]

section Steps

variable {init rest : List Alternative} {stepsA stepsB : Alternative}
  (ha : compile a = .ok sa) (hb : compile b = .ok sb) (hsa : sa.alternatives = init ++ [stepsA])
  (hsb : sb.alternatives = stepsB :: rest)

include ha hb hsa hsb

/-- With a blank between them two selectors make one in which the last alternative of the first goes
on with the first alternative of the second. -/
theorem compile_blank :
    ∃ s, compile (a ++ " " ++ b) = .ok s ∧
      s.alternatives = init ++ (stepsA ++ stepsB) :: rest := by
  obtain ⟨s, hs, hjoin⟩ := compile_append " " ⟨init, stepsA, .descendant⟩ ha hb (by decide)
    (fun core hcore hread after before hafter hbefore ↦ by
      rw [hsa] at hread
      apply leads_blanks hcore hread (by simp)
      simp only [List.forall_mem_append]
      exact ⟨hafter, List.forall_mem_singleton.mpr rfl, hbefore⟩)
  refine ⟨s, hs, ?_⟩
  rw [hjoin, hsb, Lead.join, headed_of_compile hb hsb]

/-- With a `>` between them it goes on with a child. -/
theorem compile_child :
    ∃ s, compile (a ++ ">" ++ b) = .ok s ∧
      s.alternatives = init ++ (stepsA ++ stepsB.headed .child) :: rest := by
  obtain ⟨s, hs, hjoin⟩ := compile_append ">" ⟨init, stepsA, .child⟩ ha hb (by decide)
    (fun core hcore hread after before hafter hbefore ↦ by
      rw [hsa] at hread
      exact leads_child hcore hafter hbefore hread)
  refine ⟨s, hs, ?_⟩
  rw [hjoin, hsb, Lead.join]

end Steps

end MarkupSelect.Selector
