import Mathlib.Data.List.Induction
import MarkupSelect.Proofs.Attribute.Rendering
import MarkupSelect.Proofs.Forest.Written
import MarkupSelect.Text.Plain

/-!
# Text without its tags

A tag goes from a `<` to the nearest `>` behind it, whatever stands between the two. Stripping
leaves the pieces around the tags. Two texts one behind the other can be stripped one by one exactly
if the first does not end in a tag; so of a rendering the texts of the forest are left.
-/

namespace MarkupSelect

namespace Bytes

/-! ### Pieces outside of tags -/

/-- The pieces of a text that lie outside of its tags: those in front of its tags, and the one
behind the last tag, unless that tag is not closed. -/
inductive Untagged : Bytes → List Bytes → Prop
  | last {piece : Bytes} (h : Ascii.less ∉ piece) : Untagged piece [piece]
  | unclosed {piece rest : Bytes} (h : Ascii.less ∉ piece) (hrest : Ascii.greater ∉ rest) :
      Untagged (piece ++ Ascii.less :: rest) [piece]
  | closed {piece body text : Bytes} {pieces : List Bytes} (h : Ascii.less ∉ piece)
      (hbody : Ascii.greater ∉ body) (hrest : Untagged text pieces) :
      Untagged (piece ++ Ascii.less :: (body ++ Ascii.greater :: text)) (piece :: pieces)

/-- Every text has its pieces. -/
theorem exists_untagged (text : Bytes) : ∃ pieces, Untagged text pieces := by
  by_cases hless : Ascii.less ∈ text
  · obtain ⟨piece, rest, htext, hpiece⟩ := List.eq_append_cons_of_mem hless
    by_cases hgreater : Ascii.greater ∈ rest
    · obtain ⟨body, behind, hrest, hbody⟩ := List.eq_append_cons_of_mem hgreater
      have : behind.length < text.length := by
        rw [htext, hrest]
        simp only [List.length_append, List.length_cons]
        omega
      obtain ⟨pieces, hpieces⟩ := exists_untagged behind
      rw [htext, hrest]
      exact ⟨piece :: pieces, .closed hpiece hbody hpieces⟩
    · rw [htext]
      exact ⟨[piece], .unclosed hpiece hgreater⟩
  · exact ⟨[text], .last hless⟩
termination_by text.length

/-! ### Stripping a piece and a tag -/

/-- A text that opens no tag is left as it is. -/
theorem stripTags_append_of_notMem {piece : Bytes} (h : Ascii.less ∉ piece) (text : Bytes) :
    stripTags (piece ++ text) = piece ++ stripTags text := by
  induction piece with
  | nil => rfl
  | cons b piece ih =>
    rw [List.mem_cons, not_or] at h
    have hb : ¬ b = Ascii.less := Ne.symm h.1
    have hrest := ih h.2
    rw [stripTags] at hrest ⊢
    rw [List.cons_append, outsideTags, if_neg Bool.false_ne_true, if_neg hb, hrest, stripTags,
      List.cons_append]

/-- Stripping a text that opens no tag changes nothing. -/
theorem stripTags_of_notMem {text : Bytes} (h : Ascii.less ∉ text) : stripTags text = text := by
  have hstrip := stripTags_append_of_notMem h []
  rwa [List.append_nil, stripTags_nil, List.append_nil] at hstrip

private theorem outsideTags_body {body : Bytes} (h : Ascii.greater ∉ body) (text : Bytes) :
    outsideTags true (body ++ text) = outsideTags true text := by
  induction body with
  | nil => rfl
  | cons b body ih =>
    rw [List.mem_cons, not_or] at h
    have hb : (b != Ascii.greater) = true := bne_iff_ne.mpr (Ne.symm h.1)
    rw [List.cons_append, outsideTags, if_pos rfl, hb, ih h.2]

/-- A tag is taken out. -/
theorem stripTags_tag {body : Bytes} (h : Ascii.greater ∉ body) (text : Bytes) :
    stripTags (Ascii.less :: (body ++ Ascii.greater :: text)) = stripTags text := by
  rw [stripTags, outsideTags, if_neg Bool.false_ne_true, if_pos rfl, outsideTags_body h,
    outsideTags, if_pos rfl]
  rfl

/-- A tag that is not closed takes the rest with it. -/
theorem stripTags_unclosed {rest : Bytes} (h : Ascii.greater ∉ rest) :
    stripTags (Ascii.less :: rest) = [] := by
  have hbody := outsideTags_body h []
  rw [List.append_nil] at hbody
  rw [stripTags, outsideTags, if_neg Bool.false_ne_true, if_pos rfl, hbody]
  rfl

/-- Stripping leaves the pieces outside of the tags. -/
theorem Untagged.stripTags_eq {text : Bytes} {pieces : List Bytes} (h : Untagged text pieces) :
    stripTags text = pieces.flatten := by
  induction h with
  | last h => rw [stripTags_of_notMem h, List.flatten_singleton]
  | unclosed h hrest =>
    rw [stripTags_append_of_notMem h, stripTags_unclosed hrest, List.flatten_singleton,
      List.append_nil]
  | closed h hbody _ ih =>
    rw [stripTags_append_of_notMem h, stripTags_tag hbody, ih, List.flatten_cons]

/-- Stripping takes bytes out and changes none. -/
theorem outsideTags_sublist (inside : Bool) (text : Bytes) :
    (outsideTags inside text).Sublist text := by
  induction text generalizing inside with
  | nil => exact List.Sublist.refl []
  | cons b text ih =>
    rw [outsideTags]
    split
    · exact (ih _).cons b
    · split
      · exact (ih _).cons b
      · exact (ih _).cons_cons b

/-! ### Texts one behind the other -/

/-- Whether a text ends inside a tag; `inside` tells whether it begins in one. -/
def endsInside (inside : Bool) (text : Bytes) : Bool :=
  text.foldl (fun inside b ↦ if inside then b != Ascii.greater else b == Ascii.less) inside

/-- A text that ends outside of tags: its last `<`, if it has one, is followed by a `>`. -/
def EndsOutside (text : Bytes) : Prop :=
  ∀ lead rest, text = lead ++ Ascii.less :: rest → Ascii.less ∉ rest → Ascii.greater ∈ rest

/-- What is stripped of the second text depends on the first one only by where that ends. -/
theorem outsideTags_append (inside : Bool) (s t : Bytes) :
    outsideTags inside (s ++ t) = outsideTags inside s ++ outsideTags (endsInside inside s) t := by
  induction s generalizing inside with
  | nil => rfl
  | cons b s ih =>
    have hends : endsInside inside (b :: s) =
        endsInside (if inside then b != Ascii.greater else b == Ascii.less) s := List.foldl_cons ..
    rw [hends, List.cons_append, outsideTags, outsideTags]
    cases inside with
    | true => exact ih _
    | false =>
      rw [if_neg Bool.false_ne_true, if_neg Bool.false_ne_true, if_neg Bool.false_ne_true]
      by_cases hb : b = Ascii.less
      · rw [if_pos hb, if_pos hb, beq_iff_eq.mpr hb, ih]
      · rw [if_neg hb, if_neg hb, beq_eq_false_iff_ne.mpr hb, ih, List.cons_append]

/-- Behind a `>` a text ends outside of tags, behind a `<` it does not, and any other byte makes no
difference. -/
theorem endsOutside_concat_iff {text : Bytes} {b : UInt8} :
    EndsOutside (text ++ [b]) ↔ b = Ascii.greater ∨ (b ≠ Ascii.less ∧ EndsOutside text) := by
  constructor
  · intro h
    by_cases hgreater : b = Ascii.greater
    · exact .inl hgreater
    have hless : b ≠ Ascii.less := by
      rintro rfl
      have := h text [] rfl List.not_mem_nil
      contradiction
    refine .inr ⟨hless, fun lead rest htext hrest ↦ ?_⟩
    have hmem : Ascii.greater ∈ rest ++ [b] := by
      apply h lead (rest ++ [b])
      · rw [htext, List.append_assoc, List.cons_append]
      · rw [List.mem_append, List.mem_singleton, not_or]
        exact ⟨hrest, Ne.symm hless⟩
    rcases List.mem_append.mp hmem with hmem | hmem
    · exact hmem
    · exact absurd (List.mem_singleton.mp hmem).symm hgreater
  · intro h lead rest htext hrest
    rcases List.eq_nil_or_concat rest with rfl | ⟨rest, c, rfl⟩
    · have hb : b = Ascii.less := List.singleton_inj.mp (List.append_inj_right' htext rfl)
      rcases h with h | h
      · rw [hb] at h
        contradiction
      · exact absurd hb h.1
    · rw [List.concat_eq_append] at htext hrest ⊢
      rw [← List.cons_append, ← List.append_assoc] at htext
      obtain ⟨htext, hb⟩ := List.append_inj' htext rfl
      rw [List.mem_append, not_or] at hrest
      rw [List.mem_append, ← hb, List.mem_singleton]
      rcases h with h | h
      · exact .inr h.symm
      · exact .inl (h.2 lead rest htext hrest.1)

/-- Where a text ends is told by its last `<`. -/
theorem endsInside_eq_false_iff {text : Bytes} :
    endsInside false text = false ↔ EndsOutside text := by
  induction text using List.reverseRecOn with
  | nil =>
    refine ⟨fun _ lead rest h ↦ ?_, fun _ ↦ rfl⟩
    exact absurd h.symm (by simp)
  | append_singleton text b ih =>
    have hstep : endsInside false (text ++ [b]) =
        if endsInside false text then b != Ascii.greater else b == Ascii.less :=
      List.foldl_append ..
    rw [endsOutside_concat_iff, ← ih, hstep]
    cases endsInside false text with
    | true => simp
    | false =>
      rw [if_neg Bool.false_ne_true, beq_eq_false_iff_ne]
      constructor
      · exact fun h ↦ .inr ⟨h, rfl⟩
      · rintro (rfl | h)
        · decide
        · exact h.1

/-- The texts that can be stripped by themselves, whatever follows, are those that end outside of
tags. -/
theorem endsOutside_iff_stripTags_append {text : Bytes} :
    EndsOutside text ↔ ∀ rest, stripTags (text ++ rest) = stripTags text ++ stripTags rest := by
  rw [← endsInside_eq_false_iff]
  constructor
  · intro h rest
    rw [stripTags, outsideTags_append, h]
    rfl
  · intro h
    have hblank := h [Ascii.space]
    rw [stripTags, outsideTags_append, ← stripTags, List.append_cancel_left_eq] at hblank
    cases hends : endsInside false text with
    | false => rfl
    | true =>
      rw [hends] at hblank
      contradiction

end Bytes

/-! ### Renderings -/

/-- Attributes close no tag if their names and values do not. -/
theorem Attribute.greater_notMem_renderAll {attributes : List (Bytes × Option Bytes)}
    (h : ∀ a ∈ attributes, Ascii.greater ∉ a.1 ∧ ∀ value ∈ a.2, Ascii.greater ∉ value) :
    Ascii.greater ∉ renderAll attributes := by
  intro hmem
  obtain ⟨⟨name, value⟩, ha, hb⟩ := List.mem_flatMap.mp hmem
  obtain ⟨hname, hvalue⟩ := h _ ha
  rcases List.mem_cons.mp hb with hb | hb
  · contradiction
  rcases List.mem_append.mp hb with hb | hb
  · exact hname hb
  cases value with
  | none => contradiction
  | some value =>
    have hquotes : Ascii.greater ∉ [Ascii.equals, Ascii.doubleQuote] := by decide
    simp only [renderValue, List.mem_cons, List.mem_append, List.not_mem_nil,
      or_false] at hb hquotes
    have := hvalue value rfl
    tauto

namespace Forest

/-- The texts of a forest in document order. An element that never has content is written as its
start tag alone, and has none. -/
def texts : Forest → List Bytes
  | empty => []
  | text content rest => content :: rest.texts
  | element tag children rest =>
    (if Tag.isVoid tag.name then [] else children.texts) ++ rest.texts

/-- A forest whose texts open no tag, and whose tags are closed by no byte of their names and
attributes. -/
inductive IsTagged : Forest → Prop
  | empty : IsTagged .empty
  | text {content : Bytes} {rest : Forest} (h : Ascii.less ∉ content) (hrest : IsTagged rest) :
      IsTagged (.text content rest)
  | element {tag : StartTag} {children rest : Forest} (hname : Ascii.greater ∉ tag.name)
      (hattributes : Ascii.greater ∉ tag.attributes) (hchildren : IsTagged children)
      (hrest : IsTagged rest) : IsTagged (.element tag children rest)

/-- A start tag is taken out. -/
theorem stripTags_startTag {tag : StartTag} (hname : Ascii.greater ∉ tag.name)
    (hattributes : Ascii.greater ∉ tag.attributes) (behind : Bytes) :
    Bytes.stripTags (tag.text ++ behind) = Bytes.stripTags behind := by
  have hbody : Ascii.greater ∉ tag.name ++ tag.attributes := by
    rw [List.mem_append, not_or]
    exact ⟨hname, hattributes⟩
  have htag := Bytes.stripTags_tag hbody behind
  rwa [List.append_cons, ← List.cons_append] at htag

/-- An end tag is taken out. -/
theorem stripTags_endTag {name : Bytes} (hname : Ascii.greater ∉ name) (behind : Bytes) :
    Bytes.stripTags (Element.endTag name ++ behind) = Bytes.stripTags behind := by
  have hbody : Ascii.greater ∉ Ascii.slash :: name := by
    rw [List.mem_cons, not_or]
    exact ⟨by decide, hname⟩
  have htag := Bytes.stripTags_tag hbody behind
  rwa [List.append_cons, List.cons_append, ← List.cons_append, ← List.cons_append] at htag

/-- Of a rendering the texts are left, whatever follows it. -/
theorem IsTagged.stripTags_render_append {forest : Forest} (h : forest.IsTagged) (behind : Bytes) :
    Bytes.stripTags (forest.render ++ behind) = forest.texts.flatten ++ Bytes.stripTags behind := by
  induction h generalizing behind with
  | empty => rfl
  | @text content rest hcontent _ ih =>
    rw [render, texts, List.append_assoc, Bytes.stripTags_append_of_notMem hcontent, ih,
      List.flatten_cons, List.append_assoc]
  | @element tag children rest hname hattributes _ _ ihc ihr =>
    rw [render, texts, StartTag.element, List.append_assoc, List.append_assoc,
      stripTags_startTag hname hattributes]
    split
    · rw [List.nil_append, List.nil_append, ihr]
    · rw [List.append_assoc, ihc, stripTags_endTag hname, ihr, List.flatten_append,
        List.append_assoc]

end Forest

/-! ### Stripping -/

/-- Stripping leaves no `<`, takes bytes out and changes none, leaves the pieces outside of the tags
whole, and does nothing the second time. A text can be stripped apart from whatever follows it
exactly if its last `<`, if it has one, is followed by a `>`. And of the rendering of a forest the
texts are left, in document order; no start tag of it is closed too early by attributes whose names
and values hold no `>`. -/
theorem Bytes.stripTags_exact (text : Bytes) :
    (Ascii.less ∉ stripTags text ∧ (stripTags text).Sublist text ∧
      ((∃ pieces, Untagged text pieces) ∧
        ∀ pieces, Untagged text pieces → stripTags text = pieces.flatten) ∧
      stripTags (stripTags text) = stripTags text) ∧
      (EndsOutside text ↔ ∀ rest, stripTags (text ++ rest) = stripTags text ++ stripTags rest) ∧
      (∀ forest : Forest, forest.IsTagged → stripTags forest.render = forest.texts.flatten) ∧
      ∀ attributes : List (Bytes × Option Bytes),
        (∀ a ∈ attributes, Ascii.greater ∉ a.1 ∧ ∀ value ∈ a.2, Ascii.greater ∉ value) →
          Ascii.greater ∉ Attribute.renderAll attributes := by
  have hless : Ascii.less ∉ stripTags text := less_not_mem_outsideTags false text
  refine ⟨⟨hless, outsideTags_sublist false text, ⟨exists_untagged text, fun _ ↦
    Untagged.stripTags_eq⟩, stripTags_of_notMem hless⟩, endsOutside_iff_stripTags_append,
    fun forest h ↦ ?_, fun _ ↦ Attribute.greater_notMem_renderAll⟩
  have hrender := h.stripTags_render_append []
  rwa [List.append_nil, stripTags_nil, List.append_nil] at hrender

/-- A text in which one tag holds a `<` can be stripped apart from a tag that is not closed; and
texts are left of a forest with an element inside one of its name, a void element and attributes of
one name. -/
theorem Bytes.stripTags_exact_nested :
    let text := ofString "a<b<c>d>"
    let attributes := Attribute.renderAll [(ofString "Class", some (ofString "x y")),
      (ofString "class", none)]
    let inside : Forest := .text (ofString "b") (.element ⟨ofString "br", []⟩ .empty
      (.element ⟨ofString "div", []⟩ (.text (ofString "c") .empty) .empty))
    let forest : Forest := .text (ofString "a>") (.element ⟨ofString "div", attributes⟩ inside
      (.text (ofString "d") .empty))
    (EndsOutside text ∧ forest.IsTagged ∧ forest.render =
      ofString "a><div Class=\"x y\" class>b<br><div>c</div></div>d") ∧
      stripTags (text ++ ofString "e<f") = ofString "ad>e" ∧
      stripTags forest.render = ofString "a>bcd" := by
  intro text attributes inside forest
  have htext : EndsOutside text := endsInside_eq_false_iff.mp (by decide)
  have hattributes : Ascii.greater ∉ attributes :=
    (stripTags_exact text).2.2.2 _ (by decide)
  have hinside : inside.IsTagged :=
    .text (by decide) (.element (by decide) (by decide) .empty
      (.element (by decide) (by decide) (.text (by decide) .empty) .empty))
  have hforest : forest.IsTagged :=
    .text (by decide) (.element (by decide) hattributes hinside (.text (by decide) .empty))
  refine ⟨⟨htext, hforest, by decide⟩, ?_, ?_⟩
  · rw [(stripTags_exact text).2.1.mp htext]
    decide
  · rw [(stripTags_exact text).2.2.1 forest hforest]
    decide

end MarkupSelect
