import MarkupSelect.Proofs.Attribute.Layout
import MarkupSelect.Proofs.Text.LetterCase

/-!
# Attributes as pieces of a start tag

However a start tag is written, each name and each value that is read from it is a piece of it, cut
out between characters, and the pieces stand one behind the other in the order of the attributes.
The loop that reads them keeps a single fact: what is left of the list is such a piece. Which names
can come about follows from where a name ends.
-/

namespace MarkupSelect

open Bytes (IsCut)

namespace Attribute

/-! ### Names and values in order -/

/-- Attributes that stand in a string one behind the other, from an offset on and in front of a
stop: each at a piece that is its name but for letter case and, if it has a value, at a piece behind
that which is the value. -/
inductive InOrder (source : String) (stop : Nat) : Nat → List (Bytes × Option Bytes) → Prop
  | nil {offset : Nat} (h : offset ≤ stop) : InOrder source stop offset []
  | bare {offset start : Nat} {name : Bytes} {others : List (Bytes × Option Bytes)}
      (hstart : offset ≤ start) (hname : IsCut source start name)
      (hothers : InOrder source stop (start + name.length) others) :
      InOrder source stop offset ((name.lower, none) :: others)
  | valued {offset start place : Nat} {name value : Bytes} {others : List (Bytes × Option Bytes)}
      (hstart : offset ≤ start) (hname : IsCut source start name)
      (hplace : start + name.length ≤ place) (hvalue : IsCut source place value)
      (hothers : InOrder source stop (place + value.length) others) :
      InOrder source stop offset ((name.lower, some value) :: others)

variable {source : String} {stop offset other : Nat} {text : Bytes}
  {attributes others : List (Bytes × Option Bytes)}

/-- What stands behind an offset stands behind every offset before. -/
theorem InOrder.mono (h : InOrder source stop offset attributes) (hle : other ≤ offset) :
    InOrder source stop other attributes := by
  cases h with
  | nil h => exact .nil (Nat.le_trans hle h)
  | bare hstart hname hothers => exact .bare (Nat.le_trans hle hstart) hname hothers
  | valued hstart hname hplace hvalue hothers =>
    exact .valued (Nat.le_trans hle hstart) hname hplace hvalue hothers

/-- Some of the attributes stand where all of them do. -/
theorem InOrder.sublist (h : InOrder source stop offset attributes)
    (hsub : others.Sublist attributes) : InOrder source stop offset others := by
  induction h generalizing others with
  | nil h =>
    rw [List.sublist_nil.mp hsub]
    exact .nil h
  | bare hstart hname _ ih =>
    cases hsub with
    | cons _ hsub => exact (ih hsub).mono (Nat.le_trans hstart (Nat.le_add_right _ _))
    | cons_cons _ hsub => exact .bare hstart hname (ih hsub)
  | valued hstart hname hplace hvalue _ ih =>
    cases hsub with
    | cons _ hsub => exact (ih hsub).mono (by omega)
    | cons_cons _ hsub => exact .valued hstart hname hplace hvalue (ih hsub)

/-! ### Where the pieces are cut -/

private theorem lt_of_isSpace : ∀ b, Ascii.isSpace b = true → b < 0x80 :=
  Ascii.forall_byte (by decide +kernel)

private theorem lt_of_isQuote (b : UInt8) (h : Ascii.isQuote b = true) : b < 0x80 := by
  rw [Ascii.isQuote, Bool.or_eq_true, beq_iff_eq, beq_iff_eq] at h
  rcases h with rfl | rfl <;> decide

private theorem lt_of_continuesName (b : UInt8) (h : continuesName b = false) : b < 0x80 := by
  rw [continuesName, Bool.not_eq_false', Bool.or_eq_true, beq_iff_eq] at h
  rcases h with rfl | hspace
  · decide
  · exact lt_of_isSpace b hspace

private theorem exists_isCut_takeValue (h : IsCut source offset text) :
    ∃ place rest, offset ≤ place ∧ IsCut source place (takeValue text).1 ∧
      place + (takeValue text).1.length ≤ rest ∧ IsCut source rest (takeValue text).2 ∧
        rest + (takeValue text).2.length ≤ offset + text.length := by
  cases text with
  | nil => exact ⟨offset, offset, Nat.le_refl _, h, Nat.le_refl _, h, Nat.le_refl _⟩
  | cons b text =>
    have hlength := fun p : UInt8 → Bool ↦ fun t : Bytes ↦
      congrArg List.length (List.takeWhile_append_dropWhile (p := p) (l := t))
    simp only [List.length_append] at hlength
    rw [takeValue]
    split
    · next hquote =>
      have hends : ∀ c, (c != b) = false → c < 0x80 := by
        intro c hc
        rw [bne_eq_false_iff_eq.mp hc]
        exact lt_of_isQuote b hquote
      have hinner : IsCut source (offset + 1) text :=
        (h.around (s := []) (lt_of_isQuote b hquote)).2.2
      obtain ⟨hvalue, hrest⟩ := hinner.takeWhile hends
      have hall := hlength (· != b) text
      cases hdrop : text.dropWhile (· != b) with
      | nil =>
        rw [hdrop] at hrest hall
        exact ⟨_, _, Nat.le_add_right _ _, hvalue, Nat.le_refl _, hrest, by simp at hall ⊢; omega⟩
      | cons c rest =>
        have hc := List.head?_dropWhile_not (· != b) text
        rw [hdrop] at hrest hall hc
        have hbehind := (hrest.around (s := []) (hends c (by simpa using hc))).2.2
        exact ⟨_, _, Nat.le_add_right _ _, hvalue, Nat.le_succ _, hbehind, by simp at hall ⊢; omega⟩
    · have hends : ∀ c, (!Ascii.isSpace c) = false → c < 0x80 := by
        intro c hc
        exact lt_of_isSpace c (by simpa using hc)
      obtain ⟨hvalue, hrest⟩ := h.takeWhile hends
      have hall := hlength (! Ascii.isSpace ·) (b :: text)
      exact ⟨_, _, Nat.le_refl _, hvalue, Nat.le_refl _, hrest, by simp only at hall ⊢; omega⟩

private theorem exists_isCut_name (h : IsCut source offset text) {b : UInt8} {rest : Bytes}
    (hspace : text.dropWhile Ascii.isSpace = b :: rest) :
    ∃ start, offset ≤ start ∧ IsCut source start ((b :: rest).takeWhile continuesName) ∧
      IsCut source (start + ((b :: rest).takeWhile continuesName).length) (afterName (b :: rest)) ∧
        start + ((b :: rest).takeWhile continuesName).length + (afterName (b :: rest)).length =
          offset + text.length := by
  have hpassed := h.dropWhile lt_of_isSpace
  have hall := congrArg List.length
    (List.takeWhile_append_dropWhile (p := Ascii.isSpace) (l := text))
  have hparts := congrArg List.length
    (List.takeWhile_append_dropWhile (p := continuesName) (l := b :: rest))
  rw [hspace] at hpassed hall
  rw [List.length_append] at hall hparts
  obtain ⟨hname, hafter⟩ := hpassed.takeWhile lt_of_continuesName
  exact ⟨_, Nat.le_add_right _ _, hname, hafter, by rw [afterName]; omega⟩

private theorem inOrder_written (text : Bytes) : ∀ offset, IsCut source offset text →
    offset + text.length ≤ stop →
      InOrder source stop offset ((written text).map fun a ↦ (Bytes.lower a.1, a.2)) := by
  fun_induction written text with
  | case1 text hspace =>
    intro offset h hstop
    exact .nil (by omega)
  | case2 text b rest hspace name hafter =>
    intro offset h hstop
    obtain ⟨start, hstart, hname, -, (hlength : start + name.length + _ = _)⟩ :=
      exists_isCut_name h hspace
    exact .bare hstart hname (.nil (show start + name.length ≤ stop by omega))
  | case3 text b rest hspace name behind read hafter ih =>
    intro offset h hstop
    obtain ⟨start, hstart, hname, hbehind, (hlength : start + name.length + _ = _)⟩ :=
      exists_isCut_name h hspace
    rw [hafter, List.length_cons] at hlength
    rw [hafter] at hbehind
    have hvalue : IsCut source
        (start + name.length + 1 + (behind.takeWhile Ascii.isSpace).length) _ :=
      (hbehind.around (s := []) (by decide)).2.2.dropWhile lt_of_isSpace
    have hall := congrArg List.length
      (List.takeWhile_append_dropWhile (p := Ascii.isSpace) (l := behind))
    rw [List.length_append] at hall
    obtain ⟨place, next, hplace, hcut, hnext, hrest, (hend : next + read.2.length ≤ _)⟩ :=
      exists_isCut_takeValue hvalue
    have hothers := (ih next hrest (by omega)).mono hnext
    exact .valued hstart hname (show start + name.length ≤ place by omega) hcut hothers
  | case4 text b rest hspace name c behind hafter hc ih =>
    intro offset h hstop
    obtain ⟨start, hstart, hname, hbehind, (hlength : start + name.length + _ = _)⟩ :=
      exists_isCut_name h hspace
    have hfirst := List.head?_dropWhile_not continuesName (b :: rest)
    rw [← afterName, hafter] at hfirst
    rw [hafter, List.length_cons] at hlength
    rw [hafter] at hbehind
    have hrest := (hbehind.around (s := []) (lt_of_continuesName c (by simpa using hfirst))).2.2
    have hothers := ih _ hrest
      (show start + name.length + 0 + 1 + behind.length ≤ stop by omega)
    exact .bare hstart hname (hothers.mono (Nat.le_succ _))

/-! ### The end of the list -/

private theorem isCut_trimEnd (h : IsCut source offset text) :
    IsCut source offset (Bytes.trimEnd text) := by
  have hreversed : ∀ reversed : Bytes, IsCut source offset reversed.reverse →
      IsCut source offset (Bytes.dropBlanks reversed).reverse := by
    intro reversed
    fun_induction Bytes.dropBlanks reversed with
    | case1 reversed _ => exact id
    | case2 reversed rest hdrop ih =>
      intro hcut
      obtain ⟨c, -, hc⟩ := List.exists_of_findSome?_eq_some hdrop
      rw [Bytes.strip?_eq_some_iff.mp hc, List.reverse_append, List.reverse_reverse] at hcut
      exact ih hcut.encode
  exact hreversed text.reverse (by rwa [List.reverse_reverse])

private theorem isCut_trimmed (h : IsCut source offset text) :
    IsCut source offset (trimmed text) := by
  apply isCut_trimEnd
  have hend := isCut_trimEnd h
  rw [withoutSlash]
  split
  · next hslash =>
    obtain ⟨lead, hlead⟩ := List.getLast?_eq_some_iff.mp hslash
    rw [hlead] at hend ⊢
    rw [List.dropLast_concat]
    exact (hend.around (by decide)).1
  · exact hend

private theorem trimEnd_isPrefix (text : Bytes) : Bytes.trimEnd text <+: text := by
  have hreversed : ∀ reversed : Bytes, Bytes.dropBlanks reversed <:+ reversed := by
    intro reversed
    fun_induction Bytes.dropBlanks reversed with
    | case1 reversed _ => exact List.suffix_refl reversed
    | case2 reversed rest hdrop ih =>
      obtain ⟨c, -, hc⟩ := List.exists_of_findSome?_eq_some hdrop
      rw [Bytes.strip?_eq_some_iff.mp hc]
      exact ih.trans (List.suffix_append _ _)
  rw [← List.reverse_suffix, Bytes.trimEnd, List.reverse_reverse]
  exact hreversed text.reverse

/-- What is left of an attribute list when its end is trimmed is its beginning. -/
theorem trimmed_isPrefix (text : Bytes) : trimmed text <+: text := by
  have hslash : withoutSlash (Bytes.trimEnd text) <+: Bytes.trimEnd text := by
    rw [withoutSlash]
    split
    · exact List.dropLast_prefix _
    · exact List.prefix_refl _
  exact (trimEnd_isPrefix _).trans (hslash.trans (trimEnd_isPrefix text))

/-! ### Names -/

/-- A name that can be read: it is not empty, has no letter in upper case, and holds nothing at
which a name or the list ends. -/
def IsReadable (name : Bytes) : Prop :=
  name ≠ [] ∧ ∀ b ∈ name, Ascii.isUpper b = false ∧ Ascii.isSpace b = false ∧
    b ≠ Ascii.equals ∧ b ≠ Ascii.greater

/-- Whether a name can be read is computed from its bytes. -/
instance (name : Bytes) : Decidable (IsReadable name) :=
  inferInstanceAs (Decidable (_ ∧ ∀ b ∈ name, _))

private theorem takeValue_suffix (text : Bytes) : (takeValue text).2 <:+ text := by
  cases text with
  | nil => exact List.suffix_refl _
  | cons b text =>
    rw [takeValue]
    split
    · exact (List.drop_suffix 1 _).trans ((List.dropWhile_suffix _).trans (List.suffix_cons b text))
    · exact List.dropWhile_suffix _

private theorem mem_of_mem_written (text : Bytes) : ∀ a ∈ written text, ∀ c ∈ a.1,
    c ∈ text ∧ continuesName c = true := by
  have hfirst : ∀ {text : Bytes} {b rest}, text.dropWhile Ascii.isSpace = b :: rest →
      ∀ c ∈ (b :: rest).takeWhile continuesName, c ∈ text ∧ continuesName c = true := by
    intro text b rest hspace c hc
    refine ⟨(List.dropWhile_suffix Ascii.isSpace).subset ?_,
      List.all_eq_true.mp List.all_takeWhile c hc⟩
    rw [hspace]
    exact (List.takeWhile_prefix _).subset hc
  have hbehind : ∀ {text : Bytes} {b rest c behind}, text.dropWhile Ascii.isSpace = b :: rest →
      afterName (b :: rest) = c :: behind → behind <:+ text := by
    intro text b rest c behind hspace hafter
    have hsuffix := (List.dropWhile_suffix continuesName).trans
      (hspace ▸ List.dropWhile_suffix Ascii.isSpace : b :: rest <:+ text)
    rw [← afterName, hafter] at hsuffix
    exact (List.suffix_cons c behind).trans hsuffix
  fun_induction written text with
  | case1 text hspace =>
    intro a ha
    contradiction
  | case2 text b rest hspace name hafter =>
    intro a ha
    rw [List.mem_singleton.mp ha]
    exact hfirst hspace
  | case3 text b rest hspace name behind read hafter ih =>
    intro a ha
    rcases List.mem_cons.mp ha with rfl | ha
    · exact hfirst hspace
    · intro c hc
      have hsuffix : read.2 <:+ behind :=
        (takeValue_suffix _).trans (List.dropWhile_suffix Ascii.isSpace)
      exact ⟨(hsuffix.trans (hbehind hspace hafter)).subset (ih a ha c hc).1, (ih a ha c hc).2⟩
  | case4 text b rest hspace name c behind hafter hc ih =>
    intro a ha
    rcases List.mem_cons.mp ha with rfl | ha
    · exact hfirst hspace
    · intro d hd
      exact ⟨(hbehind hspace hafter).subset (ih a ha d hd).1, (ih a ha d hd).2⟩

/-- Every name that is read from an attribute list without a `>` is readable. -/
theorem isReadable_of_mem_named (hgreater : Ascii.greater ∉ text) {a : Bytes × Option Bytes}
    (h : a ∈ named text) : IsReadable a.1 := by
  obtain ⟨w, hw, rfl⟩ := List.mem_map.mp h
  obtain ⟨hw, hne⟩ := List.mem_filter.mp hw
  refine ⟨by simpa [Bytes.lower] using hne, fun b hb ↦ ?_⟩
  obtain ⟨c, hc, rfl⟩ := List.mem_map.mp hb
  obtain ⟨hmem, hcontinues⟩ := mem_of_mem_written _ w hw c hc
  rw [continuesName, Bool.not_eq_true', Bool.or_eq_false_iff] at hcontinues
  have hc : c ≠ Ascii.greater := by
    rintro rfl
    exact hgreater ((trimmed_isPrefix text).subset hmem)
  refine ⟨Ascii.isUpper_toLower c, ?_, ?_, ?_⟩
  · rw [Ascii.isSpace_toLower]
    exact hcontinues.2
  · rw [Ne, Ascii.toLower_eq_iff rfl]
    exact beq_eq_false_iff_ne.mp hcontinues.1
  · rw [Ne, Ascii.toLower_eq_iff rfl]
    exact hc

/-- A readable name is in lower case. -/
theorem IsReadable.lower_eq {name : Bytes} (h : IsReadable name) : name.lower = name := by
  have hbyte : ∀ b ∈ name, Ascii.toLower b = b := fun b hb ↦
    Ascii.toLower_of_not_isUpper (h.2 b hb).1
  exact (List.map_congr_left hbyte).trans (List.map_id _)

/-- A readable name is valid if there is neither a quote nor a `/` in it. -/
theorem IsReadable.isName_eq {name : Bytes} (h : IsReadable name) :
    isName name = name.all fun b ↦ !(Ascii.isQuote b || b == Ascii.slash) := by
  have hne : name.isEmpty = false := by simpa using h.1
  rw [isName, hne, Bool.not_false, Bool.true_and, Bool.eq_iff_iff, List.all_eq_true,
    List.all_eq_true]
  refine forall₂_congr fun b hb ↦ ?_
  obtain ⟨-, hspace, hequals, hgreater⟩ := h.2 b hb
  rw [isNameByte, hspace, beq_eq_false_iff_ne.mpr hequals, beq_eq_false_iff_ne.mpr hgreater,
    Bool.or_false, Bool.or_false, Bool.or_false]

/-- The named attributes of an attribute list stand in it in order. -/
theorem inOrder_named (h : IsCut source offset text) (hstop : offset + text.length ≤ stop) :
    InOrder source stop offset (named text) := by
  have hlength := (trimmed_isPrefix text).length_le
  have hall := inOrder_written (trimmed text) offset (isCut_trimmed h)
    (Nat.le_trans (Nat.add_le_add_left hlength offset) hstop)
  exact hall.sublist (List.filter_sublist.map _)

end Attribute

/-! ### Maps -/

namespace AttributeMap

/-- The entries of the map of some attributes are among these, in their order. -/
theorem entries_ofList_sublist (attributes : List (Bytes × Option Bytes)) :
    (ofList attributes).entries.Sublist attributes := by
  have hfold : ∀ m : AttributeMap,
      (attributes.foldl (fun m a ↦ m.insert a.1 a.2) m).entries.Sublist
        (m.entries ++ attributes) := by
    induction attributes with
    | nil => intro m; simp
    | cons a attributes ih =>
      intro m
      rw [List.foldl_cons]
      refine (ih _).trans ?_
      rw [entries_insert]
      split
      · exact (List.Sublist.refl _).append (List.sublist_cons_self a attributes)
      · rw [List.append_assoc, List.singleton_append]
  exact hfold empty

variable {markup : Bytes} {tag : StartTag}

/-- Every name in the map of a markup is readable. -/
theorem isReadable_of_mem_ofMarkup {a : Bytes × Option Bytes}
    (h : a ∈ (ofMarkup markup).entries) : Attribute.IsReadable a.1 := by
  unfold ofMarkup at h
  split at h
  · next tag htag =>
    have hgreater := (StartTag.isProper_of_ofMarkup? htag).greater_not_mem
    exact Attribute.isReadable_of_mem_named hgreater ((entries_ofList_sublist _).subset h)
  · contradiction

private theorem isCut_attributes {source : String}
    (h : StartTag.ofMarkup? (Bytes.ofString source) = some tag) :
    IsCut source (tag.name.length + 1) tag.attributes := by
  obtain ⟨rest, hrest⟩ := StartTag.text_prefix_of_ofMarkup? h
  have hproper := StartTag.isProper_of_ofMarkup? h
  obtain ⟨lead, b, hname⟩ := List.eq_nil_or_concat tag.name |>.resolve_left hproper.name_ne_nil
  have hb : b < 0x80 := by
    have hbyte : Tag.isNameByte b = true :=
      List.all_eq_true.mp hproper.name_bytes b (by simp [hname])
    exact Ascii.forall_byte (p := fun b ↦ Tag.isNameByte b = true → b < 0x80)
      (by decide +kernel) b hbyte
  have hwhole := IsCut.whole source
  rw [← hrest, StartTag.text, hname] at hwhole
  have hopen : IsCut source 0 ((Ascii.less :: lead ++ b :: tag.attributes) ++
      Ascii.greater :: rest) := by
    simpa using hwhole
  have hlist := ((hopen.around (by decide)).1.around hb).2.2
  rw [hname]
  simpa using hlist

/-- The attributes of a markup stand in its start tag in order. -/
theorem inOrder_ofMarkup {source : String}
    (h : StartTag.ofMarkup? (Bytes.ofString source) = some tag) :
    Attribute.InOrder source tag.length 0 (ofMarkup (Bytes.ofString source)).entries := by
  have hnamed : Attribute.InOrder source tag.length _ _ :=
    Attribute.inOrder_named (isCut_attributes h) (by rw [tag.length_eq]; omega)
  rw [ofMarkup, h]
  exact (hnamed.sublist (entries_ofList_sublist _)).mono (Nat.zero_le _)

/-- The valid attributes of a markup are those with neither a quote nor a `/` in their names. -/
theorem entries_ofMarkupValid (markup : Bytes) :
    (ofMarkupValid markup).entries = (ofMarkup markup).entries.filter fun a ↦
      a.1.all fun b ↦ !(Ascii.isQuote b || b == Ascii.slash) := by
  rw [ofMarkupValid, entries_retain]
  apply List.filter_congr
  intro a ha
  exact (isReadable_of_mem_ofMarkup ha).isName_eq

/-- If all names of a map are in lower case, an attribute is looked up by its name in lower case. -/
theorem get?_eq_lookup {m : AttributeMap} (h : ∀ a ∈ m.entries, a.1.lower = a.1) (name : Bytes) :
    m.get? name = m.entries.lookup name.lower := by
  rw [get?]
  generalize m.entries = entries at h
  induction entries with
  | nil => rfl
  | cons a entries ih =>
    rw [List.forall_mem_cons] at h
    rw [List.find?_cons, List.lookup_cons, Bytes.agree, h.1, Bool.beq_comm]
    cases name.lower == a.1 with
    | true => rfl
    | false => exact ih h.2

/-- Whatever the markup, its attributes have readable names, no two of which agree, and stand in the
start tag one behind the other, each name but for letter case and each value cut out of the tag
between characters; without a start tag there are none. The valid ones are those with neither a
quote nor a `/` in their names. All ways to look an attribute up give what is found for the name in
lower case. -/
theorem entries_ofMarkup_pieces (source : String) :
    let all := ofMarkup (Bytes.ofString source)
    let valid := ofMarkupValid (Bytes.ofString source)
    (∀ a ∈ all.entries, Attribute.IsReadable a.1) ∧
      (all.entries.Pairwise fun a b ↦ Bytes.agree a.1 b.1 = false) ∧
      (match StartTag.ofMarkup? (Bytes.ofString source) with
        | none => all.entries = []
        | some tag => Attribute.InOrder source tag.length 0 all.entries) ∧
      valid.entries = all.entries.filter (fun a ↦
        a.1.all fun b ↦ !(Ascii.isQuote b || b == Ascii.slash)) ∧
      ∀ m ∈ [all, valid], ∀ name : Bytes,
        m.get? name = m.entries.lookup name.lower ∧
          m.contains name = (m.entries.lookup name.lower).isSome ∧
          m.value? name = (m.entries.lookup name.lower).join ∧
          m.extract? name = (m.entries.lookup name.lower).join := by
  intro all valid
  have hreadable : ∀ a ∈ all.entries, Attribute.IsReadable a.1 :=
    fun _ ↦ isReadable_of_mem_ofMarkup
  have hvalid : valid.entries = all.entries.filter _ := entries_ofMarkupValid _
  refine ⟨hreadable, all.distinct, ?_, hvalid, ?_⟩
  · split
    · next h => simp only [all, ofMarkup, h, entries_empty]
    · next tag h => exact inOrder_ofMarkup h
  · intro m hm name
    have hlower : ∀ a ∈ m.entries, a.1.lower = a.1 := by
      intro a ha
      rw [List.mem_cons, List.mem_singleton] at hm
      rcases hm with rfl | rfl
      · exact (hreadable a ha).lower_eq
      · rw [hvalid] at ha
        exact (hreadable a (List.mem_of_mem_filter ha)).lower_eq
    have hget := get?_eq_lookup hlower name
    refine ⟨hget, ?_, ?_, ?_⟩
    · rw [contains_eq_isSome_get?, hget]
    · rw [value?, hget]
    · rw [extract?_eq_value?, value?, hget]

/-- A value without a name, a name with a quote in it, that name again in other letter case, and the
`/` of the tag: of the two attributes read one is valid. -/
theorem entries_ofMarkup_pieces_malformed :
    let source := "<P =x A\"b= 'é \"' a\"B=1 c=d/ >"
    let all := ofMarkup (Bytes.ofString source)
    let valid := ofMarkupValid (Bytes.ofString source)
    let quoted := Bytes.ofString "a\"b"
    all.entries = [(quoted, some (Bytes.ofString "é \"")),
        (Bytes.ofString "c", some (Bytes.ofString "d"))] ∧
      Attribute.IsReadable quoted ∧
      Attribute.InOrder source 30 0 all.entries ∧
      valid.entries = [(Bytes.ofString "c", some (Bytes.ofString "d"))] ∧
      all.extract? (Bytes.ofString "A\"B") = some (Bytes.ofString "é \"") := by
  intro source all valid quoted
  obtain ⟨hreadable, -, horder, hvalid, hlookup⟩ := entries_ofMarkup_pieces source
  have hentries : all.entries = [(quoted, some (Bytes.ofString "é \"")),
      (Bytes.ofString "c", some (Bytes.ofString "d"))] := by decide +kernel
  have htag : StartTag.ofMarkup? (Bytes.ofString source) =
      some ⟨Bytes.ofString "P", Bytes.ofString " =x A\"b= 'é \"' a\"B=1 c=d/ "⟩ := by decide
  refine ⟨hentries, hreadable _ (hentries ▸ List.mem_cons_self), ?_, ?_, ?_⟩
  · rw [htag] at horder
    exact horder
  · have hslash : [(quoted, some (Bytes.ofString "é \"")),
        (Bytes.ofString "c", some (Bytes.ofString "d"))].filter (fun a ↦
          a.1.all fun b ↦ !(Ascii.isQuote b || b == Ascii.slash)) =
        [(Bytes.ofString "c", some (Bytes.ofString "d"))] := by decide
    exact hvalid.trans (hentries ▸ hslash)
  · have hfound := (hlookup all List.mem_cons_self (Bytes.ofString "A\"B")).2.2.2
    rw [hentries] at hfound
    exact hfound

end AttributeMap

end MarkupSelect
