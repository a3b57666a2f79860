import MarkupSelect.Proofs.Element.Parts
import MarkupSelect.Proofs.Forest.Tags

/-!
# Extents in a rendering

The depth counter comes back to its depth behind every well-formed forest. So an element that is
found in a rendering is the rendering of its node, its content is the rendering of its children, and
its direct children are the roots among them.
-/

namespace MarkupSelect

namespace Element

variable {name other : Bytes}

/-! ### The depth counter -/

private theorem depthEnd?_skip {skip : Bytes} (h : Ascii.less ∉ skip) (name : Bytes)
    (depth position : Nat) (text : Bytes) :
    depthEnd? name depth position (skip ++ text) =
      depthEnd? name depth (position + skip.length) text := by
  induction skip generalizing position with
  | nil => rfl
  | cons b skip ih =>
    rw [List.mem_cons, not_or] at h
    have hless : ∀ literal,
        Bytes.beginsWith (Ascii.less :: literal) (b :: (skip ++ text)) = false := by
      intro literal
      rw [Bool.eq_false_iff]
      intro hb
      exact h.1 (Option.some.inj (Bytes.head?_of_beginsWith hb)).symm
    have hstart : startsTag name (b :: (skip ++ text)) = false := by
      rw [startsTag, openLiteral, hless, Bool.false_and]
    rw [List.cons_append, depthEnd?, hstart, endTag, hless, if_neg (by simp), if_neg (by simp),
      ih h.2, List.length_cons]
    congr 1
    omega

private theorem eq_of_names {s t u v : Bytes} (hs : s.all Tag.isNameByte = true)
    (ht : t.all Tag.isNameByte = true) (hu : ∀ b ∈ u.head?, Tag.isNameByte b = false)
    (hv : ∀ b ∈ v.head?, Tag.isNameByte b = false) (h : s ++ u = t ++ v) : s = t := by
  have hleft := (Bytes.takeWhile_append_of_head hs hu).1
  rw [h, (Bytes.takeWhile_append_of_head ht hv).1] at hleft
  exact hleft.symm

private def endsName (b : UInt8) : Bool :=
  Ascii.isSpace b || b == Ascii.greater || b == Ascii.slash

private theorem isNameByte_of_endsName {b : UInt8} (h : endsName b = true) :
    Tag.isNameByte b = false :=
  Ascii.forall_byte (p := fun b ↦ endsName b = true → Tag.isNameByte b = false) (by decide +kernel)
    b h

/-- A start tag counts as one of a name exactly if it has this name. -/
theorem startsTag_iff (hname : name.all Tag.isNameByte = true)
    (hother : other.all Tag.isNameByte = true) {text : Bytes}
    (htext : text.head?.any endsName = true) :
    startsTag name (Ascii.less :: (other ++ text)) = true ↔ name.lower = other.lower := by
  have hend : ∀ {text : Bytes}, text.head?.any endsName = true →
      ∀ b ∈ text.head?, Tag.isNameByte b = false := by
    intro text h b hb
    rw [Option.mem_def.mp hb, Option.any_some] at h
    exact isNameByte_of_endsName h
  rw [startsTag, openLiteral, Bytes.beginsWith, beq_self_eq_true, Bool.true_and, Bool.and_eq_true,
    List.length_cons, List.drop_succ_cons]
  constructor
  · rintro ⟨hb, hnext⟩
    obtain ⟨lead, rest, hsplit, hlead⟩ := Bytes.beginsWith_iff_exists.mp hb
    have hlen : lead.length = name.length := by simpa using congrArg List.length hlead
    rw [hsplit, ← hlen, List.drop_left] at hnext
    have hall := Tag.all_isNameByte_of_lower hlead.symm hname
    rw [eq_of_names hother hall (hend htext) (hend hnext) hsplit, hlead]
  · intro h
    have hlen : other.length = name.length := by simpa using (congrArg List.length h).symm
    refine ⟨Bytes.beginsWith_iff_exists.mpr ⟨other, text, rfl, h.symm⟩, ?_⟩
    rw [← hlen, List.drop_left]
    exact htext

/-- An end tag counts as one of a name exactly if it has this name. -/
theorem beginsWith_endTag_iff (hname : name.all Tag.isNameByte = true)
    (hother : other.all Tag.isNameByte = true) (text : Bytes) :
    Bytes.beginsWith (endTag name) (endTag other ++ text) = true ↔ name.lower = other.lower := by
  have hend : ∀ {text : Bytes}, ∀ b ∈ (Ascii.greater :: text).head?, Tag.isNameByte b = false := by
    intro text b hb
    rw [← Option.some.inj hb]
    decide
  rw [endTag, endTag, List.cons_append, List.cons_append, List.append_assoc, List.singleton_append,
    Bytes.beginsWith, Bytes.beginsWith, beq_self_eq_true, beq_self_eq_true, Bool.true_and,
    Bool.true_and]
  constructor
  · intro hb
    obtain ⟨lead, rest, hsplit, hlead⟩ := Bytes.beginsWith_iff_exists.mp hb
    rw [Bytes.lower_append] at hlead
    obtain ⟨lead, last, rfl, hname', hlast⟩ := List.map_eq_append_iff.mp hlead
    obtain ⟨c, rfl, hc⟩ := List.map_eq_singleton_iff.mp hlast
    obtain rfl : c = Ascii.greater := (Ascii.toLower_eq_iff rfl).mp (hc.trans (by decide))
    rw [List.append_assoc, List.singleton_append] at hsplit
    have hall := Tag.all_isNameByte_of_lower (s := name) (t := lead) hname'.symm hname
    rw [eq_of_names hother hall hend hend hsplit]
    exact hname'.symm
  · intro h
    apply Bytes.beginsWith_iff_exists.mpr
    refine ⟨other ++ [Ascii.greater], text, List.append_cons _ _ _, ?_⟩
    rw [Bytes.lower_append, Bytes.lower_append, h]

private theorem not_startsTag_endTag (hne : name ≠ []) (hname : name.all Tag.isNameByte = true)
    (text : Bytes) : startsTag name (Ascii.less :: Ascii.slash :: text) = false := by
  obtain ⟨b, rest, rfl⟩ := List.exists_cons_of_ne_nil hne
  rw [Bool.eq_false_iff]
  intro h
  rw [startsTag, openLiteral, Bytes.beginsWith, Bytes.beginsWith, Bool.and_eq_true,
    Bool.and_eq_true, Bool.and_eq_true, beq_iff_eq, beq_iff_eq] at h
  have hb : b = Ascii.slash := (Ascii.toLower_eq_iff rfl).mp (h.1.2.1.trans (by decide))
  rw [hb] at hname
  contradiction

private theorem not_endTag_startTag (hother : other.all Tag.isNameByte = true) (hne : other ≠ [])
    (text : Bytes) : Bytes.beginsWith (endTag name) (Ascii.less :: (other ++ text)) = false := by
  obtain ⟨b, rest, rfl⟩ := List.exists_cons_of_ne_nil hne
  rw [Bool.eq_false_iff]
  intro h
  rw [endTag, List.cons_append, Bytes.beginsWith, Bytes.beginsWith, Bool.and_eq_true,
    Bool.and_eq_true, beq_iff_eq, beq_iff_eq] at h
  have hb : b = Ascii.slash := (Ascii.toLower_eq_iff rfl).mp (h.2.1.symm.trans (by decide))
  rw [hb] at hother
  contradiction

variable {forest : Forest} {tag : StartTag}

private theorem depthEnd?_startTag (hname : name.all Tag.isNameByte = true) (h : tag.IsPlain)
    (depth position : Nat) (text : Bytes) :
    depthEnd? name depth position (tag.text ++ text) =
      depthEnd? name (if name.lower = tag.name.lower then depth + 1 else depth)
        (position + tag.length) text := by
  have hproper := h.isProper
  have hends : (tag.attributes ++ Ascii.greater :: text).head?.any endsName = true := by
    cases hattributes : tag.attributes with
    | nil => rfl
    | cons b rest =>
      have hb := h.isSpace b (by rw [hattributes]; rfl)
      rw [List.cons_append, List.head?_cons, Option.any_some, endsName, hb]
      rfl
  have hsplit : tag.text ++ text =
      Ascii.less :: (tag.name ++ (tag.attributes ++ Ascii.greater :: text)) := by
    simp [StartTag.text]
  have hrest : tag.name ++ (tag.attributes ++ Ascii.greater :: text) =
      tag.name ++ tag.attributes ++ [Ascii.greater] ++ text := by simp
  have hlen : position + 1 + (tag.name ++ tag.attributes ++ [Ascii.greater]).length =
      position + tag.length := by
    rw [StartTag.length, StartTag.text, List.length_cons]
    exact Nat.add_right_comm _ _ _
  rw [hsplit, depthEnd?, not_endTag_startTag hproper.name_bytes hproper.name_ne_nil]
  by_cases hsame : name.lower = tag.name.lower
  · rw [if_pos ((startsTag_iff hname hproper.name_bytes hends).mpr hsame), if_pos hsame, hrest,
      depthEnd?_skip h.less_not_mem_text, hlen]
  · rw [if_neg (fun hs ↦ hsame ((startsTag_iff hname hproper.name_bytes hends).mp hs)),
      if_neg (by simp), if_neg hsame, hrest, depthEnd?_skip h.less_not_mem_text, hlen]

private theorem depthEnd?_endTag (hne : name ≠ []) (hname : name.all Tag.isNameByte = true)
    (h : tag.IsPlain) (depth position : Nat) (text : Bytes) :
    depthEnd? name depth position (endTag tag.name ++ text) =
      if name.lower = tag.name.lower then
        if depth - 1 = 0 then some (position + (endTag name).length)
        else depthEnd? name (depth - 1) (position + (endTag tag.name).length) text
      else depthEnd? name depth (position + (endTag tag.name).length) text := by
  have hless := h.less_not_mem_endTag
  have hlen : position + 1 + (Ascii.slash :: (tag.name ++ [Ascii.greater])).length =
      position + (endTag tag.name).length := Nat.add_right_comm _ _ _
  have hsplit : endTag tag.name ++ text =
      Ascii.less :: (Ascii.slash :: (tag.name ++ [Ascii.greater]) ++ text) := rfl
  have hnot : startsTag name
      (Ascii.less :: (Ascii.slash :: (tag.name ++ [Ascii.greater]) ++ text)) = false :=
    not_startsTag_endTag hne hname _
  have hend := beginsWith_endTag_iff hname h.isProper.name_bytes text
  rw [hsplit] at hend ⊢
  rw [depthEnd?, hnot, if_neg (by simp), depthEnd?_skip hless, depthEnd?_skip hless, hlen]
  by_cases hsame : name.lower = tag.name.lower
  · rw [if_pos (hend.mpr hsame), if_pos hsame]
  · rw [if_neg (fun hb ↦ hsame (hend.mp hb)), if_neg hsame]

/-- Behind a well-formed forest the depth counter is as deep as in front of it. -/
theorem depthEnd?_render (hw : forest.WellFormed) (hne : name ≠ [])
    (hname : name.all Tag.isNameByte = true) (hv : Tag.isVoid name = false)
    (depth position : Nat) (text : Bytes) :
    depthEnd? name (depth + 1) position (forest.render ++ text) =
      depthEnd? name (depth + 1) (position + forest.render.length) text := by
  induction hw generalizing depth position text with
  | empty => rfl
  | text hcontent _ ih =>
    rw [Forest.render, List.append_assoc, depthEnd?_skip hcontent, ih, List.length_append,
      Nat.add_assoc]
  | @element tag children rest h _ _ ihc ihr =>
    have hlen : position + tag.length + children.render.length + tag.closing.length +
        rest.render.length = position + (Forest.element tag children rest).render.length := by
      rw [Forest.render, h.element_eq, StartTag.length]
      simp only [List.length_append]
      omega
    rw [← hlen, Forest.render, h.element_eq, List.append_assoc, List.append_assoc,
      List.append_assoc, depthEnd?_startTag hname h.tag_plain]
    by_cases hsame : name.lower = tag.name.lower
    · -- An element of the name goes one deeper and comes back.
      have hvoid : Tag.isVoid tag.name = false := by
        rw [← Tag.isVoid_congr (Bytes.agree_iff.mpr hsame), hv]
      rw [if_pos hsame, ihc, StartTag.closing, hvoid, if_neg (by simp),
        depthEnd?_endTag hne hname h.tag_plain, if_pos hsame, if_neg (by omega),
        Nat.add_sub_cancel, ihr]
    · rw [if_neg hsame, ihc, StartTag.closing]
      split
      · rw [List.nil_append, ihr]
        rfl
      · rw [depthEnd?_endTag hne hname h.tag_plain, if_neg hsame, ihr]

/-! ### Elements -/

variable {n : Forest.Node}

private theorem drop_markup (hn : n.WellFormed) (hv : Tag.isVoid n.tag.name = false)
    (rest : Bytes) :
    (n.markup ++ rest).drop (1 + n.tag.name.length) =
      n.tag.attributes ++ [Ascii.greater] ++
        (n.children.render ++ (endTag n.tag.name ++ rest)) := by
  have hopen : n.markup ++ rest = Ascii.less :: n.tag.name ++ (n.tag.attributes ++
      [Ascii.greater] ++ (n.children.render ++ (endTag n.tag.name ++ rest))) := by
    rw [hn.markup_eq, StartTag.closing, hv, if_neg (by simp), StartTag.text]
    simp
  rw [hopen, Nat.add_comm]
  exact List.drop_left

/-- Where a node stands, it is as long as its rendering. -/
theorem extent_node (hn : n.WellFormed) (rest : Bytes) :
    extent (n.markup ++ rest) n.tag.text = n.markup.length := by
  have hplain := hn.written.tag_plain
  have hproper := hplain.isProper
  have hstart : StartTag.ofMarkup? (n.markup ++ rest) = some n.tag :=
    hplain.ofMarkup?_of_prefix (n.text_prefix.trans (List.prefix_append _ _))
  have hlen : n.markup.length =
      n.tag.length + n.children.render.length + n.tag.closing.length := by
    rw [hn.markup_eq, List.length_append, List.length_append, StartTag.length, Nat.add_assoc]
  cases hv : Tag.isVoid n.tag.name with
  | true =>
    rw [extent_of_isVoid hstart hv, hlen, hn.written.children_of_isVoid hv, StartTag.closing, hv]
    rfl
  | false =>
    have hskip : Ascii.less ∉ n.tag.attributes ++ [Ascii.greater] := by
      rw [List.mem_append, not_or]
      exact ⟨hplain.less_not_mem, by decide⟩
    have hchildren := depthEnd?_render hn.children hproper.name_ne_nil hproper.name_bytes hv 0
    have hend := depthEnd?_endTag hproper.name_ne_nil hproper.name_bytes hplain 1
      (1 + n.tag.name.length + (n.tag.attributes ++ [Ascii.greater]).length +
        n.children.render.length) rest
    have hclosing : n.tag.closing = endTag n.tag.name := by
      rw [StartTag.closing, hv, if_neg (by simp)]
    rw [if_pos rfl, if_pos (Nat.sub_self 1)] at hend
    rw [extent_eq_depthEnd? hstart hv, drop_markup hn hv, depthEnd?_skip hskip, hchildren, hend,
      Option.getD_some, hlen, hclosing, StartTag.length_eq, List.length_append,
      List.length_singleton]
    omega

/-- In the rendering of a forest the start tag of a node expands to the node. -/
theorem expand_node {offset : Nat} (hw : forest.WellFormed) (hn : n ∈ forest.nodes offset) :
    expand forest.render (n.offset - offset) n.tag.text = n.markup := by
  obtain ⟨i, hoffset, hstands⟩ := Region.holds_node hw hn
  obtain ⟨rest, hrest⟩ := hstands.prefix_drop
  have hi : n.offset - offset = i := by
    dsimp only [Region.rendering] at hoffset
    omega
  dsimp only [Region.rendering] at hrest
  rw [hi, expand, ← hrest, extent_node (hw.of_mem hn), List.take_left]

end Element

/-! ### Content -/

variable {forest : Forest} {n : Forest.Node}

/-- The parts of a node that may have content are its start tag, the rendering of its children and
its end tag. -/
theorem Parts.ofMarkup?_node (hn : n.WellFormed) :
    ofMarkup? n.markup =
      if Tag.isVoid n.tag.name then none
      else some ⟨n.tag.text, n.children.render, Element.endTag n.tag.name⟩ := by
  have hproper := hn.written.tag_plain.isProper
  rw [Forest.Node.markup, StartTag.element]
  split
  · rw [List.append_nil]
    exact ofMarkup?_startTag hproper
  · rw [← List.append_assoc]
    exact ofMarkup?_append hproper (Bytes.agree_refl _) _

/-- The content of a node is the rendering of its children. -/
theorem Region.content?_node (hn : n.WellFormed) :
    content? n.offset n.markup =
      if Tag.isVoid n.tag.name then none else some (rendering n.inner n.children) := by
  rw [content?, Parts.ofMarkup?_node hn]
  split
  · rfl
  · rfl

/-! ### Direct children -/

/-- A node as a direct child. -/
def Forest.Node.child (n : Forest.Node) : Child := ⟨n.offset, n.tag.text, n.markup⟩

namespace Child

private theorem inText_skip (skip text : Bytes) (position : Nat) :
    inText skip.length position (skip ++ text) = inText 0 (position + skip.length) text := by
  induction skip generalizing position with
  | nil => rfl
  | cons b skip ih =>
    rw [List.length_cons, List.cons_append, inText, ih]
    congr 1
    omega

private theorem inText_text {content : Bytes} (h : Ascii.less ∉ content) (text : Bytes)
    (position : Nat) :
    inText 0 position (content ++ text) = inText 0 (position + content.length) text := by
  induction content generalizing position with
  | nil => rfl
  | cons b content ih =>
    rw [List.mem_cons, not_or] at h
    have hb : (decide (b = Ascii.less) && (content ++ text).head?.any Ascii.isLetter) = false := by
      rw [decide_eq_false (Ne.symm h.1), Bool.false_and]
    rw [List.cons_append, inText, hb, if_neg (by simp), ih h.2, List.length_cons]
    congr 1
    omega

private theorem inText_node (hn : n.WellFormed) (text : Bytes) :
    inText 0 n.offset (n.markup ++ text) =
      n.child :: inText 0 (n.offset + n.markup.length) text := by
  have hplain := hn.written.tag_plain
  obtain ⟨b, rest, htag, hletter⟩ := hplain.name_plain.exists_cons
  obtain ⟨body, hbody⟩ : ∃ body, n.markup = Ascii.less :: b :: body := by
    obtain ⟨behind, hbehind⟩ := n.text_prefix
    refine ⟨rest ++ n.tag.attributes ++ [Ascii.greater] ++ behind, ?_⟩
    rw [← hbehind, StartTag.text, htag]
    rfl
  have hstart : StartTag.ofMarkup? (Ascii.less :: (b :: body ++ text)) = some n.tag := by
    rw [← List.cons_append, ← hbody]
    exact hplain.ofMarkup?_of_prefix (n.text_prefix.trans (List.prefix_append _ _))
  have hextent : Element.extent (Ascii.less :: (b :: body ++ text)) n.tag.text =
      (b :: body).length + 1 := by
    rw [← List.cons_append, ← hbody, Element.extent_node hn, hbody, List.length_cons]
  have hhead : (decide (Ascii.less = Ascii.less) && (b :: body ++ text).head?.any Ascii.isLetter) =
      true := by
    rw [List.cons_append, List.head?_cons, Option.any_some, hletter]
    rfl
  have htake : (Ascii.less :: (b :: body ++ text)).take ((b :: body).length + 1) = n.markup := by
    rw [List.take_succ_cons, List.take_left, hbody]
  rw [hbody, List.cons_append, inText, if_pos hhead, hstart]
  dsimp only
  rw [hextent, htake, Nat.add_sub_cancel, inText_skip]
  congr 2
  rw [List.length_cons (a := Ascii.less)]
  omega

end Child

/-- The direct children in the rendering of a forest are its roots. -/
theorem Region.children_rendering (hw : forest.WellFormed) (offset : Nat) :
    (rendering offset forest).children = (forest.roots offset).map Forest.Node.child := by
  rw [children, rendering]
  dsimp only
  induction hw generalizing offset with
  | empty => rfl
  | text hcontent _ ih =>
    rw [Forest.render, Child.inText_text hcontent]
    exact ih _
  | @element tag children rest h hchildren _ _ ih =>
    have hhead := Child.inText_node (n := ⟨offset, tag, children⟩) ⟨h, hchildren⟩ rest.render
    rw [Forest.render, Forest.roots, List.map_cons, ← ih]
    exact hhead

end MarkupSelect
