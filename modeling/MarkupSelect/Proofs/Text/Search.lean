import MarkupSelect.Proofs.Text.Piece

/-!
# What a search finds

A literal occurs at an offset of a text if the text holds it there, but for letter case. A search
gives the least such offset from its start on, and the search for the last one the greatest of all.

The search looks at candidates only, the bytes that can begin the literal, and at none from which
the literal would run beyond the text. A scan that tries every offset finds the same, since behind
the bytes passed over no literal begins.
-/

namespace MarkupSelect

/-- The two cases of a letter are the bytes with its lower case. -/
theorem Ascii.isEitherCase_iff {letter b : UInt8} :
    isEitherCase letter b = true ↔ toLower b = toLower letter := by
  simp only [isEitherCase, toLower, toUpper, isUpper, isLower]
  grind

namespace Bytes

/-! ### Occurrences -/

/-- The literal lies at the offset inside the text, but for letter case. -/
def OccursAt (literal : Bytes) (offset : Nat) (text : Bytes) : Prop :=
  offset + literal.length ≤ text.length ∧
    agree ((text.drop offset).take literal.length) literal = true

/-- Whether a literal lies at an offset is computed from the bytes there. -/
instance (literal : Bytes) (offset : Nat) (text : Bytes) :
    Decidable (literal.OccursAt offset text) := inferInstanceAs (Decidable (_ ∧ _))

/-- A literal occurs where the rest of the text begins with it. -/
theorem occursAt_iff {literal text : Bytes} {offset : Nat} :
    literal.OccursAt offset text ↔
      offset ≤ text.length ∧ beginsWith literal (text.drop offset) = true := by
  rw [OccursAt, agree_iff, ← beginsWith_iff_take]
  refine and_congr_left fun hbegins ↦ ?_
  have := length_le_of_beginsWith hbegins
  rw [List.length_drop] at this
  omega

/-- The empty literal occurs at every offset up to the end. -/
theorem occursAt_nil_iff {text : Bytes} {offset : Nat} :
    OccursAt [] offset text ↔ offset ≤ text.length := by
  rw [occursAt_iff, beginsWith_nil, eq_self_iff_true, and_true]

/-- A literal occurs at the beginning of a text, or where it occurs in what is behind one byte. -/
theorem occursAt_cons_iff {literal text : Bytes} {b : UInt8} {offset : Nat} :
    literal.OccursAt offset (b :: text) ↔
      (offset = 0 ∧ beginsWith literal (b :: text) = true) ∨
        ∃ i, offset = i + 1 ∧ literal.OccursAt i text := by
  cases offset with
  | zero => simp [occursAt_iff]
  | succ i => simp [occursAt_iff]

/-! ### Every offset tried -/

/-- The first position at which the literal stands, where `text` lies at `position`. -/
def firstHit? (literal : Bytes) (position : Nat) : Bytes → Option Nat
  | [] => if literal.isEmpty then some position else none
  | b :: text =>
    if beginsWith literal (b :: text) then some position
    else firstHit? literal (position + 1) text

/-- Trying every offset gives the least one at which the literal occurs, if there is one. -/
theorem firstHit?_cases (literal : Bytes) (position : Nat) (text : Bytes) :
    (firstHit? literal position text = none ∧ ∀ i, ¬ literal.OccursAt i text) ∨
      ∃ i, firstHit? literal position text = some (position + i) ∧ literal.OccursAt i text ∧
        ∀ j, literal.OccursAt j text → i ≤ j := by
  induction text generalizing position with
  | nil =>
    cases literal with
    | nil =>
      exact .inr ⟨0, rfl, occursAt_nil_iff.mpr (Nat.le_refl 0), fun j _ ↦ Nat.zero_le j⟩
    | cons first literal =>
      refine .inl ⟨rfl, fun i h ↦ ?_⟩
      have := h.1
      simp at this
  | cons b text ih =>
    rw [firstHit?]
    split
    · next hbegins =>
      exact .inr ⟨0, rfl, occursAt_cons_iff.mpr (.inl ⟨rfl, hbegins⟩), fun j _ ↦ Nat.zero_le j⟩
    · next hbegins =>
      rcases ih (position + 1) with ⟨hnone, hno⟩ | ⟨i, hsome, hoccurs, hleast⟩
      · refine .inl ⟨hnone, fun i h ↦ ?_⟩
        rcases occursAt_cons_iff.mp h with ⟨-, h⟩ | ⟨j, -, h⟩
        · exact hbegins h
        · exact hno j h
      · refine .inr ⟨i + 1, ?_, occursAt_cons_iff.mpr (.inr ⟨i, rfl, hoccurs⟩), fun k hk ↦ ?_⟩
        · rw [hsome, Nat.add_assoc, Nat.add_comm 1]
        · rcases occursAt_cons_iff.mp hk with ⟨-, hk⟩ | ⟨j, rfl, hj⟩
          · exact absurd hk hbegins
          · exact Nat.succ_le_succ (hleast j hj)

/-- In a text shorter than the literal nothing is hit. -/
theorem firstHit?_of_length_lt {literal text : Bytes} (h : text.length < literal.length)
    (position : Nat) : firstHit? literal position text = none := by
  rcases firstHit?_cases literal position text with ⟨hnone, -⟩ | ⟨i, -, hoccurs, -⟩
  · exact hnone
  · have := hoccurs.1
    omega

/-! ### Candidates -/

/-- No literal begins at a byte that is no candidate. -/
theorem not_beginsWith_of_not_isEitherCase {first b : UInt8} {literal text : Bytes}
    (h : Ascii.isEitherCase first b = false) :
    beginsWith (first :: literal) (b :: text) = false := by
  have hne : ¬ Ascii.toLower b = Ascii.toLower first := by
    rw [← Ascii.isEitherCase_iff, h]
    exact Bool.false_ne_true
  rw [beginsWith, Bool.and_eq_false_iff, beq_eq_false_iff_ne]
  exact .inl (Ne.symm hne)

/-- Bytes that are no candidates can be passed over. -/
theorem firstHit?_skip {first : UInt8} {literal passed text : Bytes}
    (h : ∀ b ∈ passed, Ascii.isEitherCase first b = false) (position : Nat) :
    firstHit? (first :: literal) position (passed ++ text) =
      firstHit? (first :: literal) (position + passed.length) text := by
  induction passed generalizing position with
  | nil => rfl
  | cons b passed ih =>
    obtain ⟨hb, hpassed⟩ := List.forall_mem_cons.mp h
    rw [List.cons_append, firstHit?, not_beginsWith_of_not_isEitherCase hb, if_neg (by simp),
      ih hpassed, List.length_cons, Nat.add_assoc, Nat.add_comm 1]

/-- What is passed over on the way to the next candidate. -/
theorem exists_of_findIdx? {p : UInt8 → Bool} {text : Bytes} {i : Nat}
    (h : text.findIdx? p = some i) :
    ∃ passed b rest, text = passed ++ b :: rest ∧ passed.length = i ∧
      ∀ c ∈ passed, p c = false := by
  obtain ⟨hi, -, hbefore⟩ := List.findIdx?_eq_some_iff_getElem.mp h
  refine ⟨text.take i, text[i], text.drop (i + 1), ?_, ?_, fun c hc ↦ ?_⟩
  · rw [List.getElem_cons_drop, List.take_append_drop]
  · rw [List.length_take, Nat.min_eq_left (Nat.le_of_lt hi)]
  · obtain ⟨j, hj, rfl⟩ := List.mem_take_iff_getElem.mp hc
    exact Bool.eq_false_iff.mpr (hbefore j (by omega))

/-- The search that looks at candidates only finds what the scan that tries every offset does; the
last position looked at is the last one from which the literal does not run beyond the text. -/
theorem searchFrom?_eq_firstHit? {first : UInt8} {literal text : Bytes} {last position : Nat}
    (hlast : position + text.length = last + (literal.length + 1)) :
    searchFrom? (first :: literal) first last position text =
      firstHit? (first :: literal) position text := by
  fun_induction searchFrom? (first :: literal) first last position text with
  | case1 position text hnone =>
    have hpassed := List.findIdx?_eq_none_iff.mp hnone
    have hskip : firstHit? (first :: literal) position (text ++ []) =
        firstHit? (first :: literal) (position + text.length) [] := firstHit?_skip hpassed position
    rw [List.append_nil] at hskip
    rw [hskip]
    rfl
  | case2 position text i hi hbeyond =>
    obtain ⟨passed, b, rest, rfl, rfl, hpassed⟩ := exists_of_findIdx? hi
    rw [firstHit?_skip hpassed, firstHit?_of_length_lt]
    simp only [List.length_append, List.length_cons] at hlast ⊢
    omega
  | case3 position text i hi _ hagree =>
    obtain ⟨passed, b, rest, rfl, rfl, hpassed⟩ := exists_of_findIdx? hi
    rw [List.drop_left] at hagree
    rw [firstHit?_skip hpassed, firstHit?, if_pos (beginsWith_iff_take.mpr (agree_iff.mp hagree))]
  | case4 position text i hi _ hagree ih =>
    obtain ⟨passed, b, rest, rfl, rfl, hpassed⟩ := exists_of_findIdx? hi
    rw [List.drop_left, agree_iff, ← beginsWith_iff_take] at hagree
    have hrest : (passed ++ b :: rest).drop (passed.length + 1) = rest := by simp
    rw [hrest] at ih ⊢
    rw [firstHit?_skip hpassed, firstHit?, if_neg hagree, ih]
    simp only [List.length_append, List.length_cons] at hlast
    omega

/-- A search gives the first hit at or after its start. -/
theorem search?_eq_firstHit? (text literal : Bytes) (start : Nat) :
    search? text literal start =
      if start ≤ text.length then firstHit? literal start (text.drop start) else none := by
  by_cases hstart : start ≤ text.length
  · rw [if_pos hstart]
    cases literal with
    | nil =>
      rw [search?, if_neg (Nat.not_lt.mpr hstart)]
      cases text.drop start <;> rfl
    | cons first literal =>
      rw [search?, if_neg (Nat.not_lt.mpr hstart)]
      split
      · next hshort => rw [firstHit?_of_length_lt (by rwa [List.length_drop])]
      · next hlong =>
        apply searchFrom?_eq_firstHit?
        rw [List.length_cons] at hlong ⊢
        rw [List.length_drop]
        omega
  · rw [if_neg hstart]
    cases literal <;> rw [search?, if_pos (Nat.not_le.mp hstart)]

/-! ### The first occurrence -/

/-- A literal occurs behind a start where it occurs in the rest of the text. -/
theorem occursAt_drop_iff {literal text : Bytes} {start i : Nat} (h : start ≤ text.length) :
    literal.OccursAt i (text.drop start) ↔ literal.OccursAt (start + i) text := by
  rw [occursAt_iff, occursAt_iff, List.drop_drop, List.length_drop]
  exact and_congr_left fun _ ↦ by omega

/-- A search gives the least offset from its start on at which the literal occurs, if there is
one. -/
theorem search?_cases (text literal : Bytes) (start : Nat) :
    (search? text literal start = none ∧ ∀ p, start ≤ p → ¬ literal.OccursAt p text) ∨
      ∃ p, search? text literal start = some p ∧ (start ≤ p ∧ literal.OccursAt p text) ∧
        ∀ q, start ≤ q → literal.OccursAt q text → p ≤ q := by
  rw [search?_eq_firstHit?]
  split
  · next hstart =>
    rcases firstHit?_cases literal start (text.drop start) with
      ⟨hnone, hno⟩ | ⟨i, hsome, hoccurs, hleast⟩
    · refine .inl ⟨hnone, fun p hp h ↦ ?_⟩
      obtain ⟨i, rfl⟩ := Nat.exists_eq_add_of_le hp
      exact hno i ((occursAt_drop_iff hstart).mpr h)
    · have hfound := (occursAt_drop_iff hstart).mp hoccurs
      refine .inr ⟨start + i, hsome, ⟨Nat.le_add_right start i, hfound⟩, fun q hq h ↦ ?_⟩
      obtain ⟨j, rfl⟩ := Nat.exists_eq_add_of_le hq
      exact Nat.add_le_add_left (hleast j ((occursAt_drop_iff hstart).mpr h)) start
  · next hstart =>
    refine .inl ⟨rfl, fun p hp h ↦ ?_⟩
    have := h.1
    omega

/-- A search finds an offset exactly if it is the least one from the start on at which the literal
occurs. -/
theorem search?_eq_some_iff {text literal : Bytes} {start p : Nat} :
    search? text literal start = some p ↔
      (start ≤ p ∧ literal.OccursAt p text) ∧
        ∀ q, start ≤ q → literal.OccursAt q text → p ≤ q := by
  rcases search?_cases text literal start with ⟨hnone, hno⟩ | ⟨q, hsome, hq, hleast⟩
  · rw [hnone]
    exact ⟨fun h ↦ by contradiction, fun h ↦ absurd h.1.2 (hno p h.1.1)⟩
  · rw [hsome, Option.some.injEq]
    constructor
    · rintro rfl
      exact ⟨hq, hleast⟩
    · rintro ⟨hp, hleast'⟩
      exact Nat.le_antisymm (hleast p hp.1 hp.2) (hleast' q hq.1 hq.2)

/-- A search finds nothing exactly if the literal occurs nowhere from the start on. -/
theorem search?_eq_none_iff {text literal : Bytes} {start : Nat} :
    search? text literal start = none ↔ ∀ p, start ≤ p → ¬ literal.OccursAt p text := by
  rcases search?_cases text literal start with ⟨hnone, hno⟩ | ⟨p, hsome, hp, -⟩
  · exact ⟨fun _ ↦ hno, fun _ ↦ hnone⟩
  · rw [hsome]
    exact ⟨fun h ↦ by contradiction, fun hno ↦ absurd hp.2 (hno p hp.1)⟩

/-! ### The last occurrence -/

/-- Searching from the end gives the greatest offset at which the literal occurs, if any. -/
theorem lastHit?_cases {literal : Bytes} (hne : literal ≠ []) (position : Nat) (text : Bytes) :
    (lastHit? literal position text = none ∧ ∀ i, ¬ literal.OccursAt i text) ∨
      ∃ i, lastHit? literal position text = some (position + i) ∧ literal.OccursAt i text ∧
        ∀ j, literal.OccursAt j text → j ≤ i := by
  induction text generalizing position with
  | nil =>
    refine .inl ⟨rfl, fun i h ↦ hne (List.length_eq_zero_iff.mp ?_)⟩
    have := h.1
    rw [List.length_nil] at this
    omega
  | cons b text ih =>
    rw [lastHit?]
    rcases ih (position + 1) with ⟨hnone, hno⟩ | ⟨i, hsome, hoccurs, hgreatest⟩
    · rw [hnone, Option.none_or]
      split
      · next hbegins =>
        refine .inr ⟨0, rfl, occursAt_cons_iff.mpr (.inl ⟨rfl, hbegins⟩), fun k hk ↦ ?_⟩
        rcases occursAt_cons_iff.mp hk with ⟨rfl, -⟩ | ⟨j, -, hj⟩
        · exact Nat.le_refl 0
        · exact absurd hj (hno j)
      · next hbegins =>
        refine .inl ⟨rfl, fun k hk ↦ ?_⟩
        rcases occursAt_cons_iff.mp hk with ⟨-, hk⟩ | ⟨j, -, hj⟩
        · exact hbegins hk
        · exact hno j hj
    · refine .inr ⟨i + 1, ?_, occursAt_cons_iff.mpr (.inr ⟨i, rfl, hoccurs⟩), fun k hk ↦ ?_⟩
      · rw [hsome, Option.some_or, Nat.add_assoc, Nat.add_comm 1]
      · rcases occursAt_cons_iff.mp hk with ⟨rfl, -⟩ | ⟨j, rfl, hj⟩
        · exact Nat.zero_le _
        · exact Nat.succ_le_succ (hgreatest j hj)

/-- The search for the last occurrence gives the greatest offset at which the literal occurs, if
there is one. -/
theorem searchLast?_cases {literal : Bytes} (hne : literal ≠ []) (text : Bytes) :
    (searchLast? text literal = none ∧ ∀ p, ¬ literal.OccursAt p text) ∨
      ∃ p, searchLast? text literal = some p ∧ literal.OccursAt p text ∧
        ∀ q, literal.OccursAt q text → q ≤ p := by
  have hlast := lastHit?_cases hne 0 text
  simp only [Nat.zero_add] at hlast
  rwa [searchLast?, List.isEmpty_eq_false_iff.mpr hne, if_neg Bool.false_ne_true]

/-- The last search finds an offset exactly if it is the greatest at which the literal occurs. -/
theorem searchLast?_eq_some_iff {text literal : Bytes} (hne : literal ≠ []) {p : Nat} :
    searchLast? text literal = some p ↔
      literal.OccursAt p text ∧ ∀ q, literal.OccursAt q text → q ≤ p := by
  rcases searchLast?_cases hne text with ⟨hnone, hno⟩ | ⟨q, hsome, hq, hgreatest⟩
  · rw [hnone]
    exact ⟨fun h ↦ by contradiction, fun h ↦ absurd h.1 (hno p)⟩
  · rw [hsome, Option.some.injEq]
    constructor
    · rintro rfl
      exact ⟨hq, hgreatest⟩
    · rintro ⟨hp, hgreatest'⟩
      exact Nat.le_antisymm (hgreatest' q hq) (hgreatest p hp)

/-- The last search finds nothing exactly if the literal occurs nowhere. -/
theorem searchLast?_eq_none_iff {text literal : Bytes} (hne : literal ≠ []) :
    searchLast? text literal = none ↔ ∀ p, ¬ literal.OccursAt p text := by
  rcases searchLast?_cases hne text with ⟨hnone, hno⟩ | ⟨p, hsome, hp, -⟩
  · exact ⟨fun _ ↦ hno, fun _ ↦ hnone⟩
  · rw [hsome]
    exact ⟨fun h ↦ by contradiction, fun hno ↦ absurd hp (hno p)⟩

/-- A literal at the end of a text is its last occurrence. -/
theorem searchLast?_append {literal last : Bytes} (hne : literal ≠ [])
    (hlast : agree last literal = true) (lead : Bytes) :
    searchLast? (lead ++ last) literal = some lead.length := by
  have hlength : last.length = literal.length := by
    rw [← length_lower last, agree_iff.mp hlast, length_lower]
  rw [searchLast?_eq_some_iff hne, OccursAt, List.length_append, List.drop_left, ← hlength,
    List.take_length]
  refine ⟨⟨Nat.le_refl _, hlast⟩, fun q hq ↦ ?_⟩
  have := hq.1
  rw [List.length_append] at this
  omega

/-! ### Both searches -/

/-- Searches find the same where the literals occur at the same offsets. -/
theorem search?_congr {s t literal other : Bytes}
    (h : ∀ p, literal.OccursAt p s ↔ other.OccursAt p t) (start : Nat) :
    search? s literal start = search? t other start := by
  refine Option.ext fun p ↦ ?_
  rw [search?_eq_some_iff, search?_eq_some_iff]
  simp only [h]

/-- Last searches find the same where the literals occur at the same offsets. -/
theorem searchLast?_congr {s t literal other : Bytes} (hliteral : literal ≠ [])
    (hother : other ≠ []) (h : ∀ p, literal.OccursAt p s ↔ other.OccursAt p t) :
    searchLast? s literal = searchLast? t other := by
  refine Option.ext fun p ↦ ?_
  rw [searchLast?_eq_some_iff hliteral, searchLast?_eq_some_iff hother]
  simp only [h]

/-- A text holds a literal that occurs somewhere in it. -/
theorem holds_iff {text literal : Bytes} :
    holds text literal = true ↔ ∃ p, literal.OccursAt p text := by
  rw [holds]
  rcases search?_cases text literal 0 with ⟨hnone, hno⟩ | ⟨p, hsome, hp, -⟩
  · rw [hnone]
    exact ⟨fun h ↦ by contradiction, fun ⟨p, h⟩ ↦ absurd h (hno p (Nat.zero_le p))⟩
  · rw [hsome]
    exact ⟨fun _ ↦ ⟨p, hp.2⟩, fun _ ↦ rfl⟩

/-- A text holds the literals that are parts of it, but for letter case. -/
theorem holds_iff_isInfix {text literal : Bytes} :
    holds text literal = true ↔ literal.lower <:+: text.lower := by
  have hdrop : ∀ p, lower (text.drop p) = text.lower.drop p := fun _ ↦ List.map_drop
  rw [holds_iff]
  constructor
  · rintro ⟨p, h⟩
    have hbegins := beginsWith_iff.mp (occursAt_iff.mp h).2
    rw [hdrop] at hbegins
    exact hbegins.isInfix.trans (List.drop_suffix p _).isInfix
  · rintro ⟨before, after, h⟩
    have hlength := congrArg List.length h
    simp only [List.length_append, length_lower] at hlength
    refine ⟨before.length, occursAt_iff.mpr ⟨by omega, beginsWith_iff.mpr ⟨after, ?_⟩⟩⟩
    rw [hdrop, ← h, List.append_assoc, List.drop_left]

/-- The last search finds something where the text holds the literal. -/
theorem isSome_searchLast? {text literal : Bytes} (hne : literal ≠ []) :
    (searchLast? text literal).isSome = holds text literal := by
  rw [Bool.eq_iff_iff, holds_iff]
  rcases searchLast?_cases hne text with ⟨hnone, hno⟩ | ⟨p, hsome, hp, -⟩
  · rw [hnone]
    exact ⟨fun h ↦ by contradiction, fun ⟨p, h⟩ ↦ absurd h (hno p)⟩
  · rw [hsome]
    exact ⟨fun _ ↦ ⟨p, hp⟩, fun _ ↦ rfl⟩

/-- Both searches are exact. A search from a start, inside the text or beyond it, finds the least
offset from there on at which the literal occurs, and nothing only if there is none; the empty
literal it finds at the start itself, if that is not beyond the text. The search for the last
occurrence of a literal that is not empty finds the greatest offset; so it finds one exactly if the
search from the beginning does, and never one before it. -/
theorem search?_exact (text literal : Bytes) :
    ((∀ start p, search? text literal start = some p ↔
        (start ≤ p ∧ literal.OccursAt p text) ∧
          ∀ q, start ≤ q → literal.OccursAt q text → p ≤ q) ∧
      (∀ start, search? text literal start = none ↔
        ∀ p, start ≤ p → ¬ literal.OccursAt p text) ∧
      ∀ start, search? text [] start = if start ≤ text.length then some start else none) ∧
      (literal ≠ [] →
        (∀ p, searchLast? text literal = some p ↔
          literal.OccursAt p text ∧ ∀ q, literal.OccursAt q text → q ≤ p) ∧
        (searchLast? text literal = none ↔ ∀ p, ¬ literal.OccursAt p text) ∧
        (searchLast? text literal).isSome = (search? text literal 0).isSome ∧
        ∀ p q, search? text literal 0 = some p → searchLast? text literal = some q → p ≤ q) := by
  refine ⟨⟨fun _ _ ↦ search?_eq_some_iff, fun _ ↦ search?_eq_none_iff, fun start ↦ ?_⟩, fun hne ↦
    ⟨fun _ ↦ searchLast?_eq_some_iff hne, searchLast?_eq_none_iff hne, isSome_searchLast? hne,
      fun p q hp hq ↦ ?_⟩⟩
  · by_cases hstart : start ≤ text.length
    · rw [search?, if_neg (Nat.not_lt.mpr hstart), if_pos hstart]
    · rw [search?, if_pos (Nat.not_le.mp hstart), if_neg hstart]
  · have hfound := (search?_eq_some_iff.mp hp).1.2
    exact ((searchLast?_eq_some_iff hne).mp hq).2 p hfound

/-- A literal that occurs at 1, 2 and 5, of which the first two overlap. -/
theorem search?_exact_overlapping :
    let text := ofString "xAaAbaab"
    let literal := ofString "aa"
    literal ≠ [] ∧ search? text literal 2 = some 2 ∧ search? text literal 6 = none ∧
      search? text [] 9 = none ∧ searchLast? text literal = some 5 := by
  intro text literal
  have hne : literal ≠ [] := by decide
  obtain ⟨⟨hfound, hnone, hempty⟩, hlast⟩ := search?_exact text literal
  refine ⟨hne, (hfound 2 2).mpr ⟨by decide, fun q hq _ ↦ hq⟩, (hnone 6).mpr fun p hp h ↦ ?_,
    hempty 9, ((hlast hne).1 5).mpr ⟨by decide, fun q h ↦ ?_⟩⟩
  · obtain rfl : p = 6 := Nat.le_antisymm (Nat.le_of_add_le_add_right h.1) hp
    exact absurd h (by decide)
  · refine Nat.le_of_not_lt fun hq ↦ ?_
    obtain rfl : q = 6 := Nat.le_antisymm (Nat.le_of_add_le_add_right h.1) hq
    exact absurd h (by decide)

end Bytes

end MarkupSelect
