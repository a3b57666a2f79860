import MarkupSelect.Proofs.Selector.Settled
import MarkupSelect.Proofs.Text.Trim

/-!
# The ends of a selector

Before a text is read its ends are looked at. What is compiled is a text that begins with a
character that may begin a selector and ends with one that may end it, possibly with blanks around
it; all else depends on what is read.
-/

namespace MarkupSelect.Selector

variable {before core after text : List Char} {alternatives : List Alternative}

/-! ### Ends of a selector -/

/-- A character with which a selector may begin. -/
def Opens (c : Char) : Prop :=
  Text.isBlank c = false ∧ (CharKind.isReserved c = true → c ∈ ['#', '.', '['])

/-- A character with which a selector may end. -/
def Closes (c : Char) : Prop :=
  Text.isBlank c = false ∧ (CharKind.isReserved c = true → c = ']')

/-- A text that has the ends of a selector. -/
abbrev HasEnds (text : List Char) : Prop := Text.Ends Opens Closes text

/-- Nothing is trimmed from a text with the ends of a selector. -/
theorem HasEnds.isTrimmed (h : HasEnds text) : Text.IsTrimmed text :=
  Text.Ends.mono h (fun _ hc ↦ hc.1) (fun _ hc ↦ hc.1)

private theorem not_stray_of_closes {c : Char} (h : CharKind.isReserved c = true → c = ']') :
    (CharKind.isReserved c && c != ']') = false := by
  cases hr : CharKind.isReserved c with
  | false => rfl
  | true => simp [h hr]

/-- The ends of a text with the ends of a selector make no error. -/
theorem HasEnds.edgeError?_eq_none (h : HasEnds text) : edgeError? text = none := by
  obtain ⟨c, hc, -, hopens⟩ := h.first
  obtain ⟨d, hd, -, hcloses⟩ := h.last
  have hfirst : (CharKind.isReserved c && !(['#', '.', '['].contains c)) = false := by
    cases hr : CharKind.isReserved c with
    | false => rfl
    | true => rw [List.contains_iff_mem.mpr (hopens hr), Bool.not_true, Bool.and_false]
  rw [edgeError?, hc, hd]
  dsimp only
  rw [not_stray_of_closes hcloses, hfirst]
  rfl

/-- A trimmed text whose ends make no error has the ends of a selector. -/
theorem hasEnds_of_edgeError? (htrimmed : Text.IsTrimmed text) (h : edgeError? text = none) :
    HasEnds text := by
  obtain ⟨c, hc, hfirst⟩ := htrimmed.first
  obtain ⟨d, hd, hlast⟩ := htrimmed.last
  rw [edgeError?, hc, hd] at h
  dsimp only at h
  split at h
  · contradiction
  · next hcloses =>
    split at h
    · contradiction
    · next hopens =>
      refine ⟨⟨c, hc, hfirst, fun hr ↦ ?_⟩, ⟨d, hd, hlast, by simpa using hcloses⟩⟩
      rw [hr, Bool.true_and, Bool.not_eq_true, Bool.not_eq_false'] at hopens
      exact List.contains_iff_mem.mp hopens

/-- A text that ends with what ends no selector is none. -/
theorem edgeError?_of_getLast? {last : Char} (h : text.getLast? = some last)
    (hreserved : CharKind.isReserved last = true) (hne : last ≠ ']') :
    edgeError? text = some (.trailingPunctuation last) := by
  cases text with
  | nil => contradiction
  | cons c text =>
    rw [edgeError?, h, List.head?_cons]
    simp [hreserved, hne]

/-- A text that ends as a selector does and begins with what begins none is none. -/
theorem edgeError?_of_head? {first last : Char} (h : text.head? = some first)
    (hreserved : CharKind.isReserved first = true) (hne : first ∉ ['#', '.', '['])
    (hlast : text.getLast? = some last) (hcloses : CharKind.isReserved last = true → last = ']') :
    edgeError? text = some (.leadingPunctuation first) := by
  have hbegin : (['#', '.', '['].contains first) = false :=
    Bool.eq_false_iff.mpr (mt List.contains_iff_mem.mp hne)
  rw [edgeError?, h, hlast]
  dsimp only
  rw [not_stray_of_closes hcloses, hreserved, hbegin]
  rfl

/-- A text with the ends of a selector does not end with a backslash. -/
theorem HasEnds.getLast?_ne (h : HasEnds text) : text.getLast? ≠ some '\\' := by
  obtain ⟨d, hd, -, hcloses⟩ := h.last
  rw [hd]
  intro hback
  rw [Option.some.inj hback] at hcloses
  exact absurd (hcloses (by decide)) (by decide)

/-! ### Compiling between blanks -/

/-- Blanks around a selector do not matter. -/
theorem compile_of_hasEnds (h : HasEnds core) (hbefore : ∀ c ∈ before, Text.isBlank c = true)
    (hafter : ∀ c ∈ after, Text.isBlank c = true) (hread : alternativesOf core = .ok alternatives)
    {source : String} (hsource : source.toList = before ++ core ++ after) :
    compile source = .ok ⟨String.ofList core, alternatives⟩ := by
  rw [compile, hsource, h.isTrimmed.trim_append hbefore hafter, h.edgeError?_eq_none, hread]
  rfl

/-- A text that is a selector is one between blanks. -/
theorem exists_core_of_compile {source : String} {s : Selector} (h : compile source = .ok s) :
    ∃ before core after, HasEnds core ∧ (∀ c ∈ before, Text.isBlank c = true) ∧
      (∀ c ∈ after, Text.isBlank c = true) ∧ source.toList = before ++ core ++ after ∧
        alternativesOf core = .ok s.alternatives := by
  obtain ⟨before, after, hbefore, hafter, hsplit⟩ := Text.exists_trim source.toList
  unfold compile at h
  dsimp only at h
  split at h
  · contradiction
  · next hedges =>
    have hne : Text.trim source.toList ≠ [] := by
      intro hempty
      rw [hempty] at hedges
      contradiction
    refine ⟨before, Text.trim source.toList, after,
      hasEnds_of_edgeError? (Text.isTrimmed_trim hne) hedges, hbefore, hafter, hsplit, ?_⟩
    obtain ⟨alternatives, hread, hs⟩ := exists_of_bind h
    rw [hread, ← Except.ok.inj hs]

end MarkupSelect.Selector
