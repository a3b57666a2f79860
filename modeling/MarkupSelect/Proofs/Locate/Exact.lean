import MarkupSelect.Proofs.Locate.Candidates
import MarkupSelect.Proofs.Locate.Filter

/-!
# Where the searches look

A search goes on behind each literal that it finds, tests the bytes around it and asks its filter.
What it comes upon can be told without it: by what stands at a position of the text. This holds of
every text, and the course of the search of every filter.
-/

namespace MarkupSelect.Region

/-! ### By the name of a tag -/

/-- The text begins with a tag as a search by name looks for: behind `<` and the name, in any letter
case, white space or `>` follows, and the first angle bracket behind the `<` is the `>` that ends
the tag. -/
structure BeginsTag (name text tag : Bytes) : Prop where
  name_eq : Bytes.lower (text.take (name.length + 1)) = Bytes.lower (Ascii.less :: name)
  ends : ∃ b, text[name.length + 1]? = some b ∧ (Ascii.isSpace b = true ∨ b = Ascii.greater)
  closed : ∃ inner rest, text = Ascii.less :: (inner ++ Ascii.greater :: rest) ∧
    (∀ b ∈ inner, Place.isBracket b = false) ∧ tag = Ascii.less :: (inner ++ [Ascii.greater])

variable {name text tag : Bytes}

/-- A tag that begins a text is a start tag without an inner `<`. -/
theorem BeginsTag.exists_startTag (h : BeginsTag name text tag) (hne : name ≠ [])
    (hname : name.all Tag.isNameByte = true) :
    ∃ found : StartTag, found.IsProper ∧ Ascii.less ∉ found.attributes ∧ found.text <+: text ∧
      found.text = tag := by
  obtain ⟨inner, rest, rfl, hinner, rfl⟩ := h.closed
  obtain ⟨b, hb, hends⟩ := h.ends
  have hlower := h.name_eq
  rw [List.take_succ_cons] at hlower
  have hwritten := (List.cons.inj hlower).2
  have hbytes := Tag.all_isNameByte_of_lower hwritten.symm hname
  have hsplit := List.take_append_drop name.length (inner ++ Ascii.greater :: rest)
  have hhead : ((inner ++ Ascii.greater :: rest).drop name.length).head? = some b := by
    rw [List.head?_drop]
    exact hb
  generalize (inner ++ Ascii.greater :: rest).take name.length = written at *
  generalize (inner ++ Ascii.greater :: rest).drop name.length = behind at *
  rcases Bytes.append_eq_append_cons hsplit with ⟨others, rfl, -⟩ | ⟨attributes, rfl, rfl⟩
  · -- No name holds the `>`.
    have := List.all_eq_true.mp hbytes Ascii.greater (List.mem_append_right _ List.mem_cons_self)
    contradiction
  have hbrackets : ∀ c, Place.isBracket c = true → c ∉ attributes := by
    intro c hc hmem
    rw [hinner c (List.mem_append_right _ hmem)] at hc
    contradiction
  refine ⟨⟨written, attributes⟩, ⟨?_, hbytes, ?_, hbrackets _ (by decide)⟩,
    hbrackets _ (by decide), ⟨rest, ?_⟩, ?_⟩
  · rintro rfl
    exact hne (List.map_eq_nil_iff.mp hwritten.symm)
  · intro c hc
    rw [List.head?_append, Option.mem_def.mp hc, Option.some_or] at hhead
    rw [Option.some.inj hhead]
    rcases hends with hspace | rfl
    · exact Tag.isNameByte_of_isSpace hspace
    · decide
  · simp [StartTag.text]
  · simp [StartTag.text]

/-- A place at which `<` and a name stand begins a start tag for the name exactly if the text behind
it begins with such a tag. -/
theorem beginsTag_iff (hne : name ≠ []) (hname : name.all Tag.isNameByte = true) {p : Place} :
    BeginsTag name p.after tag ↔
      Bytes.beginsWith (Element.openLiteral name) p.after = true ∧ tagAt? name p = some tag := by
  rw [Bytes.beginsWith_iff_take, tagAt?_eq_some_iff]
  constructor
  · intro h
    exact ⟨h.name_eq, h.ends, h.exists_startTag hne hname⟩
  · rintro ⟨heq, hends, found, hproper, hless, ⟨rest, hrest⟩, rfl⟩
    refine ⟨heq, hends, found.name ++ found.attributes, rest, ?_,
      isBracket_eq_false_of_isProper hproper (List.prefix_refl _) hless, rfl⟩
    rw [← hrest]
    simp [StartTag.text]

/-- The start tags of a name are listed in ascending order. -/
theorem ascending_tagsNamed (r : Region) (name : Bytes) :
    (r.tagsNamed name).Pairwise fun a b ↦ a.1 < b.1 := by
  unfold tagsNamed
  split
  · exact .nil
  · apply (Place.ascending_all _ _).filterMap
    intro p q hpq a ha b hb
    obtain ⟨_, -, rfl⟩ := Option.map_eq_some_iff.mp ha
    obtain ⟨_, -, rfl⟩ := Option.map_eq_some_iff.mp hb
    exact Nat.add_lt_add_left hpq _

/-- Exactly the tags are listed that begin somewhere in the text. -/
theorem mem_tagsNamed_iff_beginsTag {r : Region} {e : Nat × Bytes} :
    e ∈ r.tagsNamed name ↔
      (name ≠ [] ∧ name.all Tag.isNameByte = true) ∧
        ∃ h, e.1 = r.base + h ∧ BeginsTag name (r.text.drop h) e.2 := by
  rw [mem_tagsNamed_iff]
  apply and_congr_right
  rintro ⟨hne, hname⟩
  constructor
  · rintro ⟨p, htext, hb, tag, htag, rfl⟩
    refine ⟨p.offset, rfl, ?_⟩
    rw [← htext, Place.drop_offset, beginsTag_iff hne hname]
    exact ⟨hb, htag⟩
  · rintro ⟨h, hoffset, htag⟩
    have hle : h ≤ r.text.length := by
      obtain ⟨inner, rest, hdrop, -⟩ := htag.closed
      have := congrArg List.length hdrop
      rw [List.length_drop, List.length_cons] at this
      omega
    have hplace := (beginsTag_iff (p := .ofOffset r.text h) hne hname).mp htag
    refine ⟨.ofOffset r.text h, Place.text_ofOffset _ _, hplace.1, e.2, hplace.2, ?_⟩
    rw [Place.offset_ofOffset hle, absolute, ← hoffset]

/-- For every filter a search by tag name visits in ascending order the positions at which a tag of
the name begins, asks about each of them once, up to the first stop or the end, and finds exactly
the tags that were kept. A name has one byte at least, and all of them are name bytes. -/
theorem filterTags_exact {σ : Type} (filter : Filter σ) (state : σ) (r : Region) (name : Bytes) :
    ∃ candidates : List (Nat × Bytes),
      (candidates.Pairwise fun a b ↦ a.1 < b.1) ∧
      (∀ e, e ∈ candidates ↔ (name ≠ [] ∧ name.all Tag.isNameByte = true) ∧
        ∃ h, e.1 = r.base + h ∧ BeginsTag name (r.text.drop h) e.2) ∧
      ∃ visits, Filter.Course (fun _ filter state ↦ r.filterTags name filter state) filter state
        candidates visits ∧ ∀ v ∈ visits, v.answer ≠ none := by
  have hascending := r.ascending_tagsNamed name
  obtain ⟨visits, hcourse⟩ := Filter.exists_course filter state (r.tagsNamed name)
  exact ⟨_, hascending, fun e ↦ mem_tagsNamed_iff_beginsTag, visits, hcourse,
    hcourse.answer_ne_none hascending⟩

/-- The filter skips the first tag, keeps the second and stops at the third. The first is inside one
whose attribute list holds a `<`, and the third is the same as the first. -/
example :
    let r : Region := ⟨5, Bytes.ofString "<p/><p a=<p><P\n></p ><pa><p <p>x<p>"⟩
    let filter : Filter Nat := fun asked _ ↦
      (if asked = 0 then .skip else if asked = 1 then .keep else .keepAndStop, asked + 1)
    (r.filterTags (Bytes.ofString "p") filter.recording (0, [])).2.2 =
        [(Bytes.ofString "<p>", .skip), (Bytes.ofString "<P\n>", .keep),
          (Bytes.ofString "<p>", .keepAndStop)] ∧
      (r.filterTags (Bytes.ofString "p") filter 0).1.offsets = [17, 33] := by
  decide

/-! ### By the name of an attribute -/

/-- At a position of the text a name stands as a search by attribute looks for: in any letter case,
behind white space and inside a start tag, where the text from the nearest `<` before the position
through the first `>` behind it is one start tag of a known element. -/
structure StandsInTag (text name : Bytes) (position start : Nat) (tag : Bytes) : Prop where
  name_eq : Bytes.lower ((text.drop position).take name.length) = Bytes.lower name
  space : ∃ i b, position = i + 1 ∧ text[i]? = some b ∧ Ascii.isSpace b = true
  inside : (Place.ofOffset text position).insideStartTag = true
  around : ∃ before lead rest after : Bytes,
    text = before ++ Ascii.less :: (lead ++ (rest ++ Ascii.greater :: after)) ∧
      before.length = start ∧ start + 1 + lead.length = position ∧
      Ascii.less ∉ lead ∧ Ascii.greater ∉ rest ∧
      tag = Ascii.less :: (lead ++ rest ++ [Ascii.greater])
  known : StartTag.isKnownTag tag = true

private theorem space_iff {p : Place} :
    (∃ i b, p.offset = i + 1 ∧ p.text[i]? = some b ∧ Ascii.isSpace b = true) ↔
      p.before.head?.any Ascii.isSpace = true := by
  obtain ⟨before, after⟩ := p
  cases before with
  | nil => simp [Place.offset]
  | cons c before =>
    have hbyte : (Place.mk (c :: before) after).text[before.length]? = some c := by
      simp [Place.text]
    rw [List.head?_cons, Option.any_some]
    constructor
    · rintro ⟨i, b, hi, hb, hspace⟩
      obtain rfl : before.length = i := Nat.succ.inj hi
      rw [hbyte] at hb
      rw [Option.some.inj hb, hspace]
    · intro hspace
      exact ⟨before.length, c, rfl, hbyte, hspace⟩

private theorem around_iff {p : Place} {start : Nat} :
    (∃ before lead rest after : Bytes,
      p.text = before ++ Ascii.less :: (lead ++ (rest ++ Ascii.greater :: after)) ∧
        before.length = start ∧ start + 1 + lead.length = p.offset ∧
        Ascii.less ∉ lead ∧ Ascii.greater ∉ rest ∧
        tag = Ascii.less :: (lead ++ rest ++ [Ascii.greater])) ↔
      p.enclosing? = some (start, tag) := by
  rw [Place.enclosing?_eq_some_iff]
  constructor
  · rintro ⟨before, lead, rest, after, htext, rfl, hoffset, hlead, hrest, rfl⟩
    have hsplit : p.before.reverse ++ p.after =
        (before ++ Ascii.less :: lead) ++ (rest ++ Ascii.greater :: after) := by
      rw [List.append_assoc, List.cons_append, ← htext, Place.text]
    have hlength : p.before.reverse.length = (before ++ Ascii.less :: lead).length := by
      rw [List.length_reverse, List.length_append, List.length_cons]
      rw [Place.offset] at hoffset
      omega
    obtain ⟨hbefore, hafter⟩ := List.append_inj hsplit hlength
    refine ⟨lead.reverse, before.reverse, rest, after, ?_, ?_, hafter, hrest, ?_⟩
    · rw [← List.reverse_reverse p.before, hbefore]
      simp
    · rw [List.mem_reverse]
      exact hlead
    · rw [List.length_reverse, List.reverse_reverse]
  · rintro ⟨lead, before, rest, after, hbefore, hlead, hafter, hrest, heq⟩
    obtain ⟨rfl, rfl⟩ := Prod.mk.inj heq
    refine ⟨before.reverse, lead.reverse, rest, after, ?_, ?_, ?_, ?_, hrest, rfl⟩
    · simp [Place.text, hbefore, hafter]
    · rw [List.length_reverse]
    · rw [Place.offset, hbefore, List.length_append, List.length_cons, List.length_reverse]
      omega
    · rw [List.mem_reverse]
      exact hlead

/-- The name stands at a place, and the tag around the place is this one, exactly if the name stands
in the tag. -/
theorem standsInTag_iff {p : Place} {start : Nat} :
    StandsInTag p.text name p.offset start tag ↔
      Bytes.beginsWith name p.after = true ∧ tagAround? p = some (start, tag) := by
  rw [Bytes.beginsWith_iff_take, tagAround?, Option.ite_none_right_eq_some, Bool.and_eq_true,
    Option.filter_eq_some_iff, ← space_iff, ← around_iff]
  constructor
  · intro h
    have hname := h.name_eq
    have hinside := h.inside
    rw [Place.drop_offset] at hname
    rw [Place.ofOffset_text_offset] at hinside
    exact ⟨hname, ⟨h.space, hinside⟩, h.around, h.known⟩
  · rintro ⟨hname, ⟨hbefore, hinside⟩, hpiece, hknown⟩
    refine ⟨?_, hbefore, ?_, hpiece, hknown⟩
    · rw [Place.drop_offset, hname]
    · rw [Place.ofOffset_text_offset, hinside]

/-- A position at which a name stands in a tag lies inside the text. -/
theorem StandsInTag.position_le {position start : Nat}
    (h : StandsInTag text name position start tag) : position ≤ text.length := by
  obtain ⟨before, lead, rest, after, rfl, rfl, hposition, -⟩ := h.around
  rw [← hposition, List.length_append, List.length_cons, List.length_append]
  omega

/-- The positions at which an attribute name stands in a start tag, each with the start tag and the
offset of its `<`. -/
def occurrences (r : Region) (name : Bytes) : List (Nat × Nat × Bytes) :=
  if Attribute.isName name then
    (Place.all name r.text).filterMap fun p ↦ (tagAround? p).map (p.offset, ·)
  else []

/-- A start tag is listed once for every occurrence of the name. -/
theorem tagsWith_eq (r : Region) (name : Bytes) :
    r.tagsWith name = (r.occurrences name).map fun o ↦ (r.absolute o.2.1, o.2.2) := by
  unfold tagsWith occurrences
  cases Attribute.isName name with
  | false => rfl
  | true =>
    rw [if_neg (by simp), if_pos rfl, List.map_filterMap]
    simp [Function.comp_def]

/-- The occurrences ascend. -/
theorem ascending_occurrences (r : Region) (name : Bytes) :
    (r.occurrences name).Pairwise fun a b ↦ a.1 < b.1 := by
  unfold occurrences
  split
  · apply (Place.ascending_all _ _).filterMap
    intro p q hpq a ha b hb
    obtain ⟨_, -, rfl⟩ := Option.map_eq_some_iff.mp ha
    obtain ⟨_, -, rfl⟩ := Option.map_eq_some_iff.mp hb
    exact hpq
  · exact .nil

/-- Exactly the positions are listed at which the name stands in a start tag. -/
theorem mem_occurrences_iff {r : Region} {position start : Nat} :
    (position, start, tag) ∈ r.occurrences name ↔
      Attribute.isName name = true ∧ StandsInTag r.text name position start tag := by
  unfold occurrences
  split
  · next hname =>
    rw [List.mem_filterMap, and_iff_right hname]
    constructor
    · rintro ⟨p, hp, ho⟩
      obtain ⟨d, hd, heq⟩ := Option.map_eq_some_iff.mp ho
      obtain ⟨rfl, rfl⟩ := Prod.mk.inj heq
      obtain ⟨htext, hb⟩ := Place.of_mem_all hp
      rw [← htext, standsInTag_iff]
      exact ⟨hb, hd⟩
    · intro h
      have hoffset := Place.offset_ofOffset h.position_le
      obtain ⟨hb, hd⟩ := (standsInTag_iff (p := .ofOffset r.text position)).mp (by
        rw [Place.text_ofOffset, hoffset]
        exact h)
      have hmem := mem_all_of_tagAround? hname hb hd
      rw [Place.text_ofOffset] at hmem
      refine ⟨_, hmem, ?_⟩
      rw [hd, Option.map_some, hoffset]
  · next hname => simp [hname]

/-- For every filter a search by an attribute name visits in ascending order the positions at which
the name stands in a start tag, asks about the tag unless it was kept before, up to the first stop
or the end, and finds exactly the tags that were kept. -/
theorem filterAttributes_exact {σ : Type} (filter : Filter σ) (state : σ) (r : Region)
    (name : Bytes) :
    ∃ occurrences : List (Nat × Nat × Bytes),
      (occurrences.Pairwise fun a b ↦ a.1 < b.1) ∧
      (∀ position start tag, (position, start, tag) ∈ occurrences ↔
        Attribute.isName name = true ∧ StandsInTag r.text name position start tag) ∧
      ∃ visits, Filter.Course (fun _ filter state ↦ r.filterAttributes name filter state) filter
        state (occurrences.map fun o ↦ (r.base + o.2.1, o.2.2)) visits := by
  refine ⟨_, r.ascending_occurrences name, fun _ _ _ ↦ mem_occurrences_iff, ?_⟩
  have hcandidates : (r.occurrences name).map (fun o ↦ (r.base + o.2.1, o.2.2)) = r.tagsWith name :=
    (r.tagsWith_eq name).symm
  rw [hcandidates]
  exact Filter.exists_course filter state (r.tagsWith name)

/-- The filter is asked about a tag again that it has skipped, and not about one that was kept. -/
example :
    let r : Region := ⟨3, Bytes.ofString "<a id=1 id title=' id id'>< id><b id/ id><x id>"⟩
    let filter : Filter Nat := fun asked _ ↦ (if asked = 0 then .skip else .keep, asked + 1)
    (r.filterAttributes (Bytes.ofString "ID") filter.recording (0, [])).2.2 =
        [(Bytes.ofString "<a id=1 id title=' id id'>", .skip),
          (Bytes.ofString "<a id=1 id title=' id id'>", .keep),
          (Bytes.ofString "<b id/ id>", .keep)] ∧
      (r.filterAttributes (Bytes.ofString "ID") filter 0).1.offsets = [3, 34] := by
  decide

end MarkupSelect.Region
