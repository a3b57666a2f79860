import MarkupSelect.Proofs.Selector.Moves
import MarkupSelect.Proofs.Selector.Passage

/-!
# How a text begins behind a comma

Behind a comma a builder has forgotten all but the alternatives in front of it. So a text is read
there as by itself, whatever it begins with: the alternatives in front of it are there besides, and
a `>` that it begins with makes a child of its first step. Blanks at its ends do not matter.
-/

namespace MarkupSelect

variable {alternatives own : List Alternative} {ls : List Lexeme} {position : Nat}

/-! ### Leads -/

/-- The combinator of the first step of a text, given the one that it begins with. -/
def Lead.heading (pending : Combinator) : List Lexeme → Combinator
  | [] => pending
  | l :: ls =>
    if l.kind = .space then heading pending ls
    else if l = ⟨.punctuation, '>'⟩ then .child
    else pending

/-- A combinator that waits for a step goes in front of the first. -/
theorem Lead.heading_child (ls : List Lexeme) : heading .child ls = .child := by
  induction ls with
  | nil => rfl
  | cons l ls ih =>
    rw [heading, ih]
    split
    · rfl
    · split <;> rfl

private theorem Lead.heading_of_opens {combinator : Combinator} {l : Lexeme}
    (h : l.kind = .literal ∨ l.kind = .punctuation ∧ l.char ∈ ['#', '.', '[']) :
    heading combinator (l :: ls) = combinator := by
  have hspace : l.kind ≠ .space := by
    rcases h with h | ⟨h, -⟩ <;> simp [h]
  have hchild : l ≠ ⟨.punctuation, '>'⟩ := by
    rintro rfl
    simp at h
  rw [heading, if_neg hspace, if_neg hchild]

/-- Alternatives that stand in front of a lead stand in front of all that is joined to it. -/
theorem Lead.join_eq_append (alternatives : List Alternative) (combinator : Combinator)
    (own : List Alternative) : Lead.join ⟨alternatives, [], combinator⟩ own =
      alternatives ++ Lead.join ⟨[], [], combinator⟩ own := by
  cases own with
  | nil => exact (List.append_nil _).symm
  | cons a rest => rfl

namespace Builder

/-- The alternatives that a builder comes to with some more lexemes, the first of which is the one
at the position. -/
def alternativesFrom (b : Builder) (position : Nat) (ls : List Lexeme) :
    Except SelectorError (List Alternative) := do
  (← b.feedAll position ls).finish

/-- At the end of a text there is an alternative. -/
theorem ne_nil_of_finish {b : Builder} (h : b.finish = .ok alternatives) : alternatives ≠ [] := by
  obtain ⟨init, steps, -, -, rfl⟩ := leaves_of_finish h
  exact List.concat_ne_nil _ _

/-- What is read on when a part has begun is read behind every lead. -/
theorem exists_own {lead : Lead} {reading : Reading} (hreading : reading ≠ .between)
    (h : { lead.builder with reading := reading }.alternativesFrom position ls =
      .ok alternatives) :
    ∃ own, own ≠ [] ∧ ∀ (lead : Lead) position,
      { lead.builder with reading := reading }.alternativesFrom position ls =
        .ok (lead.join own) := by
  have hbegun : HasBegun { empty with reading := reading } := .inl hreading
  have hfollows (lead : Lead) (position : Nat) := follows_feedAll lead 0 position ls hbegun
  simp only [behind_opened] at hfollows
  obtain ⟨b, hb, hfinish⟩ := exists_of_bind h
  have hfirst := hfollows lead position
  rw [hb] at hfirst
  generalize hresult : feedAll { empty with reading := reading } 0 ls = result at hfirst hfollows
  cases hfirst with
  | @ok c hc =>
    obtain ⟨own, hown, -⟩ := (finish_behind_iff lead hc).mp hfinish
    refine ⟨own, ne_nil_of_finish hown, fun lead position ↦ ?_⟩
    have hother := hfollows lead position
    generalize hfeed : feedAll _ position ls = other at hother
    cases hother with
    | ok hc =>
      rw [alternativesFrom, hfeed]
      exact (finish_behind_iff lead hc).mpr ⟨own, hown, rfl⟩

/-- What is read behind a comma or a `>` behind it is read behind all alternatives in the same
way. -/
theorem exists_join {combinator : Combinator} {before : List Alternative}
    (h : (Lead.builder ⟨before, [], combinator⟩).alternativesFrom position ls =
      .ok alternatives) :
    ∃ own, own ≠ [] ∧ ∀ before position,
      (Lead.builder ⟨before, [], combinator⟩).alternativesFrom position ls =
        .ok (Lead.join ⟨before, [], Lead.heading combinator ls⟩ own) := by
  induction ls generalizing combinator position with
  | nil => cases combinator <;> contradiction
  | cons l ls ih =>
    have hstep : ∀ (before : List Alternative) (position : Nat),
        (Lead.builder ⟨before, [], combinator⟩).alternativesFrom position (l :: ls) =
          (Lead.builder ⟨before, [], combinator⟩).between position l >>=
            fun b ↦ b.alternativesFrom (position + 1) ls := fun _ _ ↦ by
      rw [alternativesFrom, feedAll, bind_assoc]
      rfl
    rw [hstep] at h
    simp only [hstep]
    cases role l with
    | begins reading hreading hopens _ hbegins =>
      have hheading : Lead.heading combinator (l :: ls) = combinator :=
        Lead.heading_of_opens hopens
      rw [hbegins] at h
      simp only [hbegins, hheading]
      obtain ⟨own, hne, hown⟩ := exists_own hreading h
      exact ⟨own, hne, fun before position ↦ hown ⟨before, [], combinator⟩ (position + 1)⟩
    | space hspace =>
      have hsame (before : List Alternative) (position : Nat) :
          (Lead.builder ⟨before, [], combinator⟩).between position l =
            .ok (Lead.builder ⟨before, [], combinator⟩) := by
        rw [between, hspace]
        rfl
      rw [hsame] at h
      rw [Lead.heading, if_pos hspace]
      simp only [hsame]
      obtain ⟨own, hne, hown⟩ := ih h
      exact ⟨own, hne, fun before position ↦ hown before (position + 1)⟩
    | child hchild =>
      subst hchild
      cases combinator with
      | child => contradiction
      | descendant =>
        have hrest : (Lead.builder ⟨before, [], .child⟩).alternativesFrom (position + 1) ls =
            .ok alternatives := h
        obtain ⟨own, hne, hown⟩ := ih hrest
        rw [Lead.heading_child] at hown
        exact ⟨own, hne, fun before position ↦ hown before (position + 1)⟩
    | comma hcomma =>
      subst hcomma
      cases combinator <;> contradiction
    | stray hstray =>
      rw [hstray] at h
      contradiction

/-- Where a text stands does not matter for the alternatives that it comes to. -/
theorem alternativesFrom_of_position {combinator : Combinator} {before : List Alternative}
    (h : (Lead.builder ⟨before, [], combinator⟩).alternativesFrom position ls = .ok alternatives)
    (position' : Nat) :
    (Lead.builder ⟨before, [], combinator⟩).alternativesFrom position' ls = .ok alternatives := by
  obtain ⟨own, -, hown⟩ := exists_join h
  rw [hown, ← hown before position, h]

/-! ### Blanks -/

variable {b c : Builder} {l : Lexeme}

private theorem settle_of_feed_space (hl : l.kind = .space) (h : b.feed position l = .ok c)
    {e : SelectorError} (hb : b.settle = .error e) : c.settle = .error .unterminatedBracket := by
  unfold feed at h
  unfold settle at hb
  cases hreading : b.reading with
  | between =>
    rw [hreading] at hb
    contradiction
  | tagName name =>
    rw [hreading] at h hb
    dsimp only at h hb
    rw [if_neg (by simp [hl]), hb] at h
    contradiction
  | shorthand kind name =>
    rw [hreading] at h hb
    dsimp only at h hb
    rw [if_neg (by simp [hl]), hb] at h
    contradiction
  | attributeName name =>
    rw [hreading] at h
    dsimp only [inAttributeName] at h
    rw [hl] at h
    rw [← Except.ok.inj h]
    by_cases hname : name.isEmpty = true <;> simp [settle, hname]
  | operator name symbol =>
    rw [hreading] at h
    dsimp only [inOperator] at h
    rw [if_pos hl] at h
    rw [← Except.ok.inj h]
    rfl
  | value name symbol quote value =>
    rw [hreading] at h
    cases quote with
    | some q =>
      have hquote : l.isPunctuation q = false := by simp [Lexeme.isPunctuation, hl]
      dsimp only [inValue] at h
      rw [hquote] at h
      rw [← Except.ok.inj h]
      rfl
    | none =>
      dsimp only [inValue] at h
      rw [if_pos hl] at h
      rw [← Except.ok.inj h]
      rfl
  | afterValue name symbol value =>
    rw [hreading] at h
    dsimp only at h
    rw [if_pos hl] at h
    rw [← Except.ok.inj h, settle, hreading]

/-- Blanks at the end of a text change nothing. -/
theorem alternativesFrom_blanks_iff {blanks : List Lexeme} (h : ∀ l ∈ blanks, l.kind = .space) :
    b.alternativesFrom position blanks = .ok alternatives ↔ b.finish = .ok alternatives := by
  induction blanks generalizing b position with
  | nil => rfl
  | cons l blanks ih =>
    rw [List.forall_mem_cons] at h
    have hstep : b.alternativesFrom position (l :: blanks) =
        b.feed position l >>= fun c ↦ c.alternativesFrom (position + 1) blanks := by
      rw [alternativesFrom, feedAll, bind_assoc]
      rfl
    rw [hstep]
    cases hsettle : b.settle with
    | ok c =>
      have hfeed : b.feed position l = .ok c.endStep := by
        rw [feed_of_settle hsettle (by simp [h.1]), between, h.1]
      have hfinish : c.endStep.finish = b.finish := by
        rw [finish_eq, finish_eq, hsettle, settle_of_between (reading_endStep_of_settle hsettle)]
        change (do return (← c.endStep.endAlternative).alternatives) =
          (do return (← c.endAlternative).alternatives)
        rw [endAlternative_congr (endStep_endStep c)]
      rw [hfeed, ← hfinish]
      exact ih h.2
    | error e =>
      have hfinish : ∀ b : Builder, ∀ e, b.settle = .error e → b.finish ≠ .ok alternatives := by
        intro b e hb hok
        rw [finish_eq, hb] at hok
        contradiction
      refine iff_of_false (fun hok ↦ ?_) (hfinish b e hsettle)
      obtain ⟨c, hc, hrest⟩ := exists_of_bind hok
      exact hfinish c _ (settle_of_feed_space h.1 hc hsettle) ((ih h.2).mp hrest)

end Builder

/-! ### Texts -/

namespace Selector

open Builder

variable {before after cs : List Char}

/-- By itself a text is read behind nothing. -/
theorem alternativesOf_eq (cs : List Char) : alternativesOf cs =
    (Lead.builder ⟨[], [], .descendant⟩).alternativesFrom 0 (Lexeme.ofText cs) := rfl

/-- Behind a comma a text stands for what it stands for by itself. -/
theorem exists_of_behind_comma {front : List Alternative}
    (h : (Lead.builder ⟨front, [], .descendant⟩).alternativesFrom position (Lexeme.ofText cs) =
      .ok alternatives) :
    ∃ own, alternativesOf cs = .ok own ∧ own ≠ [] ∧ alternatives = front ++ own := by
  obtain ⟨own, hne, hown⟩ := exists_join h
  have hself : alternativesOf cs =
      .ok (Lead.join ⟨[], [], Lead.heading .descendant (Lexeme.ofText cs)⟩ own) := hown [] 0
  rw [hown front position] at h
  refine ⟨_, hself, ?_, ?_⟩
  · obtain ⟨a, rest, rfl⟩ := List.exists_cons_of_ne_nil hne
    exact List.append_ne_nil_of_right_ne_nil _ (List.cons_ne_nil _ _)
  · rw [← Except.ok.inj h, Lead.join_eq_append]

/-- What a text is read as is not nothing. -/
theorem ne_nil_of_alternativesOf (h : alternativesOf cs = .ok alternatives) :
    alternatives ≠ [] := by
  obtain ⟨b, -, hfinish⟩ := exists_of_bind h
  exact ne_nil_of_finish hfinish

/-- The first step of a text has the combinator that the text begins with. -/
theorem exists_headed_of_alternativesOf {a : Alternative}
    (h : alternativesOf cs = .ok (a :: alternatives)) :
    ∃ b : Alternative, a = b.headed (Lead.heading .descendant (Lexeme.ofText cs)) := by
  rw [alternativesOf_eq] at h
  obtain ⟨own, hne, hown⟩ := exists_join h
  obtain ⟨b, rest, rfl⟩ := List.exists_cons_of_ne_nil hne
  have hsame := (hown [] 0).symm.trans h
  exact ⟨b, (List.cons.inj (Except.ok.inj hsame)).1.symm⟩

/-- Blanks in front of a text do not matter. -/
theorem alternativesOf_blanks_append_iff (hbefore : ∀ c ∈ before, Text.isBlank c = true) :
    alternativesOf (before ++ cs) = .ok alternatives ↔ alternativesOf cs = .ok alternatives := by
  have hblanks : ∀ l ∈ before.map fun c ↦ (⟨.space, c⟩ : Lexeme), l.kind = .space := by
    rw [List.forall_mem_map]
    exact fun c _ ↦ rfl
  have hread := reads_blanks_of_isIdle (b := Lead.builder ⟨[], [], .descendant⟩)
    ⟨rfl, rfl, rfl⟩ rfl hblanks 0
  rw [alternativesOf_eq, alternativesOf_eq, alternativesFrom, Lexeme.ofText_blanks hbefore,
    feedAll_append, hread]
  constructor
  · exact fun h ↦ alternativesFrom_of_position h 0
  · exact fun h ↦ alternativesFrom_of_position h _

/-- Blanks behind a text do not matter. -/
theorem alternativesOf_append_blanks_iff (hcs : cs.getLast? ≠ some '\\')
    (hafter : ∀ c ∈ after, Text.isBlank c = true) :
    alternativesOf (cs ++ after) = .ok alternatives ↔ alternativesOf cs = .ok alternatives := by
  have hblanks : ∀ l ∈ after.map fun c ↦ (⟨.space, c⟩ : Lexeme), l.kind = .space := by
    rw [List.forall_mem_map]
    exact fun c _ ↦ rfl
  have hspaces : Lexeme.ofText after = after.map fun c ↦ ⟨.space, c⟩ := by
    simpa [Lexeme.ofText] using Lexeme.ofText_blanks hafter []
  rw [alternativesOf, alternativesOf, Lexeme.ofText_append hcs, feedAll_append, hspaces]
  cases hfeed : empty.feedAll 0 (Lexeme.ofText cs) with
  | error e => rfl
  | ok b => exact alternativesFrom_blanks_iff hblanks

end Selector

end MarkupSelect
