import MarkupSelect.Proofs.Element.Placed

/-!
# Children and the gaps around them

The walk over a region passes every byte once. A byte lies in a child, in a gap in front of one, or
in the tail behind the last, and only the tail can hold a place where a start tag seems to begin.
-/

namespace MarkupSelect

namespace Bytes

/-- A start tag seems to begin in the text: it holds a `<` that a letter follows. -/
def HasOpening (text : Bytes) : Prop :=
  ∃ before b after, text = before ++ Ascii.less :: b :: after ∧ Ascii.isLetter b = true

/-- If a start tag seems to begin in the text, no `>` follows the first place where one does. -/
def NeverCloses (text : Bytes) : Prop :=
  ∀ before b after, text = before ++ Ascii.less :: b :: after → Ascii.isLetter b = true →
    ¬ before.HasOpening → Ascii.greater ∉ b :: after

/-- A start tag seems to begin at the first byte of a text or behind it. -/
theorem hasOpening_cons_iff {b : UInt8} {text : Bytes} :
    HasOpening (b :: text) ↔
      (b = Ascii.less ∧ text.head?.any Ascii.isLetter = true) ∨ text.HasOpening := by
  constructor
  · rintro ⟨before, c, after, htext, hc⟩
    cases before with
    | nil =>
      obtain ⟨rfl, rfl⟩ := List.cons.inj htext
      exact .inl ⟨rfl, hc⟩
    | cons d before =>
      obtain ⟨-, rfl⟩ := List.cons.inj htext
      exact .inr ⟨before, c, after, rfl, hc⟩
  · rintro (⟨rfl, hletter⟩ | ⟨before, c, after, rfl, hc⟩)
    · cases text with
      | nil => contradiction
      | cons c after => exact ⟨[], c, after, rfl, hletter⟩
    · exact ⟨b :: before, c, after, rfl, hc⟩

/-- In the empty text nothing begins. -/
theorem not_hasOpening_nil : ¬ HasOpening [] := by
  rintro ⟨before, b, after, htext, -⟩
  exact absurd htext (by simp)

/-- A byte that does not open a start tag may be put in front. -/
theorem NeverCloses.cons {b : UInt8} {text : Bytes} (h : text.NeverCloses)
    (hb : ¬ (b = Ascii.less ∧ text.head?.any Ascii.isLetter = true)) :
    NeverCloses (b :: text) := by
  intro before c after htext hc hbefore
  cases before with
  | nil =>
    obtain ⟨rfl, rfl⟩ := List.cons.inj htext
    exact absurd ⟨rfl, hc⟩ hb
  | cons d before =>
    obtain ⟨-, rfl⟩ := List.cons.inj htext
    apply h before c after rfl hc
    intro hopening
    exact hbefore (hasOpening_cons_iff.mpr (.inr hopening))

/-- A text without a `>` never closes. -/
theorem neverCloses_of_not_mem {text : Bytes} (h : Ascii.greater ∉ text) : text.NeverCloses := by
  rintro before b after rfl - - hmem
  exact h (List.mem_append_right _ (List.mem_cons_of_mem _ hmem))

end Bytes

namespace Child

/-! ### Gaps -/

/-- The gaps in front of the children of a text that lies at `position`. -/
def gaps (position : Nat) (text : Bytes) : List Child → List Bytes
  | [] => []
  | child :: children =>
    let last := child.offset + child.element.length
    text.take (child.offset - position) :: gaps last (text.drop (last - position)) children

/-- What lies behind the last of the children of a text that lies at `position`. -/
def tail (position : Nat) (text : Bytes) : List Child → Bytes
  | [] => text
  | child :: children =>
    let last := child.offset + child.element.length
    tail last (text.drop (last - position)) children

/-! ### Tilings -/

/-- A text that lies at `position` consists of gaps and children by turns, and of a tail. -/
inductive Tile : (position : Nat) → Bytes → List Child → Prop
  | tail {position : Nat} {text : Bytes} (htail : text.NeverCloses) : Tile position text []
  | child {position : Nat} {gap rest : Bytes} {child : Child} {children : List Child}
      (hgap : ¬ gap.HasOpening) (hoffset : child.offset = position + gap.length)
      (hhead : child.element.head? = some Ascii.less)
      (hrest : Tile (position + gap.length + child.element.length) rest children) :
      Tile position (gap ++ (child.element ++ rest)) (child :: children)

/-- A child may begin at once. -/
theorem Tile.child_nil (child : Child) {rest : Bytes} {children : List Child}
    (hhead : child.element.head? = some Ascii.less)
    (hrest : Tile (child.offset + child.element.length) rest children) :
    Tile child.offset (child.element ++ rest) (child :: children) :=
  Tile.child Bytes.not_hasOpening_nil rfl hhead hrest

/-- A byte that does not open a start tag belongs to the first gap, or to the tail. -/
theorem Tile.cons {position : Nat} {b : UInt8} {text : Bytes} {children : List Child}
    (h : Tile (position + 1) text children)
    (hb : ¬ (b = Ascii.less ∧ text.head?.any Ascii.isLetter = true)) :
    Tile position (b :: text) children := by
  cases h with
  | tail htail => exact .tail (htail.cons hb)
  | @child _ gap rest child children hgap hoffset hhead hrest =>
    have hlength : position + (b :: gap).length = position + 1 + gap.length := by
      rw [List.length_cons]
      omega
    rw [← List.cons_append]
    apply Tile.child
    · rw [Bytes.hasOpening_cons_iff]
      rintro (⟨hless, hletter⟩ | hopening)
      · apply hb
        refine ⟨hless, ?_⟩
        cases gap with
        | nil => contradiction
        | cons c gap => exact hletter
      · exact hgap hopening
    · rw [hlength, hoffset]
    · exact hhead
    · rw [hlength]
      exact hrest

private theorem tile_of_ofMarkup? {position size : Nat} {text : Bytes} {tag : StartTag}
    (htag : StartTag.ofMarkup? (Ascii.less :: text) = some tag)
    (hsize : Element.extent (Ascii.less :: text) tag.text = size)
    (hrest : ∀ skip ≤ text.length,
      Tile (position + 1 + skip) (text.drop skip) (inText skip (position + 1) text)) :
    Tile position (Ascii.less :: text) (⟨position, tag.text, (Ascii.less :: text).take size⟩ ::
      inText (size - 1) (position + 1) text) := by
  have hbounds := Element.extent_bounds htag
  have hpos := tag.length_pos
  rw [hsize] at hbounds
  obtain ⟨size, rfl⟩ : ∃ behind, size = behind + 1 := ⟨size - 1, by omega⟩
  have hlength : ((Ascii.less :: text).take (size + 1)).length = size + 1 := by
    rw [List.length_take, Nat.min_eq_left hbounds.2]
  have hbehind := hrest size (Nat.le_of_succ_le_succ hbounds.2)
  rw [Nat.add_right_comm, Nat.add_assoc, ← hlength] at hbehind
  have htile := Tile.child_nil
    ⟨position, tag.text, (Ascii.less :: text).take (size + 1)⟩ rfl hbehind
  rw [← List.drop_succ_cons, List.take_append_drop] at htile
  exact htile

/-- The walk tiles what it has not yet passed. -/
theorem tile_inText (skip position : Nat) {text : Bytes} (hskip : skip ≤ text.length) :
    Tile (position + skip) (text.drop skip) (inText skip position text) := by
  induction text generalizing skip position with
  | nil =>
    rw [List.drop_nil]
    exact .tail (Bytes.neverCloses_of_not_mem List.not_mem_nil)
  | cons b text ih =>
    cases skip with
    | succ skip =>
      have := ih skip (position + 1) (Nat.le_of_succ_le_succ hskip)
      rw [Nat.add_right_comm] at this
      exact this
    | zero =>
      rw [inText, List.drop_zero, Nat.add_zero]
      split
      · next hopen =>
        rw [Bool.and_eq_true, decide_eq_true_eq] at hopen
        obtain ⟨rfl, hletter⟩ := hopen
        split
        · next hnone =>
          apply Tile.tail
          apply Bytes.neverCloses_of_not_mem
          exact StartTag.greater_not_mem_of_ofMarkup? hletter hnone
        · next tag htag =>
          exact tile_of_ofMarkup? htag rfl fun skip hskip ↦ ih skip (position + 1) hskip
      · next hopen =>
        apply Tile.cons
        · exact ih 0 (position + 1) (Nat.zero_le _)
        · simpa using hopen

/-! ### What a tiling says -/

namespace Tile

variable {position : Nat} {text : Bytes} {children : List Child}

/-- No child lies in front of the text. -/
theorem position_le (h : Tile position text children) :
    ∀ child ∈ children, position ≤ child.offset := by
  induction h with
  | tail => simp
  | child _ hoffset _ _ ih =>
    rw [List.forall_mem_cons]
    constructor
    · omega
    · intro other hother
      have := ih other hother
      omega

/-- The children ascend, each behind the end of those before it. -/
theorem ascending (h : Tile position text children) :
    children.Pairwise fun c d ↦ c.offset < d.offset ∧ c.offset + c.element.length ≤ d.offset := by
  induction h with
  | tail => exact .nil
  | @child _ _ _ child _ _ hoffset hhead hrest ih =>
    rw [List.pairwise_cons]
    refine ⟨fun other hother ↦ ?_, ih⟩
    have hle := hrest.position_le other hother
    have hpos : child.element.length ≠ 0 := by
      intro hempty
      rw [List.length_eq_zero_iff.mp hempty] at hhead
      contradiction
    omega

private theorem gaps_child {gap rest : Bytes} {child : Child}
    (hoffset : child.offset = position + gap.length) :
    gaps position (gap ++ (child.element ++ rest)) (child :: children) =
        gap :: gaps (position + gap.length + child.element.length) rest children ∧
      Child.tail position (gap ++ (child.element ++ rest)) (child :: children) =
        Child.tail (position + gap.length + child.element.length) rest children := by
  have hgap : child.offset - position = gap.length := by omega
  have hlast : child.offset + child.element.length - position =
      gap.length + child.element.length := by omega
  rw [gaps, Child.tail, hgap, hlast, hoffset, List.take_left, ← List.drop_drop, List.drop_left,
    List.drop_left]
  exact ⟨rfl, rfl⟩

/-- In the gaps no start tag seems to begin. -/
theorem not_hasOpening (h : Tile position text children) :
    ∀ gap ∈ gaps position text children, ¬ gap.HasOpening := by
  induction h with
  | tail => simp [gaps]
  | child hgap hoffset _ _ ih =>
    rw [(gaps_child hoffset).1, List.forall_mem_cons]
    exact ⟨hgap, ih⟩

/-- In the tail no start tag begins. -/
theorem neverCloses (h : Tile position text children) :
    (Child.tail position text children).NeverCloses := by
  induction h with
  | tail htail => exact htail
  | child _ hoffset _ _ ih =>
    rw [(gaps_child hoffset).2]
    exact ih

/-- The gaps with the children behind them, and the tail, make up the text. -/
theorem flatten (h : Tile position text children) :
    ((gaps position text children).zipWith (· ++ ·) (children.map Child.element)).flatten ++
      Child.tail position text children = text := by
  induction h with
  | tail => rfl
  | child _ hoffset _ _ ih =>
    rw [(gaps_child hoffset).1, (gaps_child hoffset).2, List.map_cons, List.zipWith_cons_cons,
      List.flatten_cons, List.append_assoc, ih, List.append_assoc]

end Tile

end Child

/-! ### The children of a region -/

namespace Region

/-- The gaps in front of the children of a region. -/
def gaps (r : Region) : List Bytes := Child.gaps r.base r.text r.children

/-- What lies behind the last child of a region. -/
def tail (r : Region) : Bytes := Child.tail r.base r.text r.children

/-- The children of a region tile it. -/
theorem tile_children (r : Region) : Child.Tile r.base r.text r.children :=
  Child.tile_inText 0 r.base (Nat.zero_le r.text.length)

/-- In every text the children ascend without overlap, each of them is what the text holds at its
offset and begins with its start tag, and with the gaps in front of them and the tail they make up
the text. No gap holds a `<` that a letter follows, and if the tail holds one, no `>` follows the
first. -/
theorem partition_children (r : Region) :
    (r.children.Pairwise fun c d ↦
        c.offset < d.offset ∧ c.offset + c.element.length ≤ d.offset) ∧
      (∀ child ∈ r.children, r.Holds (child.offset, child.element) ∧
        child.startTag <+: child.element) ∧
      (∀ gap ∈ r.gaps, ¬ gap.HasOpening) ∧ r.tail.NeverCloses ∧
      (r.gaps.zipWith (· ++ ·) (r.children.map Child.element)).flatten ++ r.tail = r.text := by
  have htile := r.tile_children
  refine ⟨htile.ascending, fun child hchild ↦ ⟨?_, ?_⟩, htile.not_hasOpening, htile.neverCloses,
    htile.flatten⟩
  · exact (Element.isResolvedIn_of_mem_children hchild).holds
  · obtain ⟨i, tag, -, htag, hstart, helement⟩ := mem_children hchild
    rw [hstart, helement]
    exact StartTag.text_prefix_of_ofMarkup? (Element.ofMarkup?_expand htag)

/-- A `<` in front of a blank belongs to a gap, and one whose tag is not closed to the tail. -/
example :
    let r : Region := ⟨3, Bytes.ofString "1 < 2<p>a<p>b</p></p><br>x<i y"⟩
    r.gaps = [Bytes.ofString "1 < 2", []] ∧ r.tail = Bytes.ofString "x<i y" := by
  decide +kernel

end Region

end MarkupSelect
