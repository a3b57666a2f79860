import Mathlib.Data.Bool.AllAny
import Mathlib.Data.List.Basic
import MarkupSelect.Attribute.Reading
import MarkupSelect.Proofs.Tag
import MarkupSelect.Proofs.Text.Boundary

/-!
# Layouts of attribute lists

The same attributes can be laid out in many ways: with any white space between them and behind the
`=`, with values in either quote or in none, and with a `/` at the end of the tag. Reading gives the
attributes back from every layout, because each of them is read whatever follows it, and nothing of
the last is lost when the end of the list is trimmed.
-/

namespace MarkupSelect

/-! ### Blanks at the end of a text -/

namespace Bytes

/-- White space is a blank, and is dropped as one. -/
theorem dropBlank?_of_isSpace {b : UInt8} (h : Ascii.isSpace b = true) (text : Bytes) :
    dropBlank? (b :: text) = some text := by
  have hcases : ∀ b, Ascii.isSpace b = true →
      b = 0x20 ∨ b = 0x09 ∨ b = 0x0A ∨ b = 0x0B ∨ b = 0x0C ∨ b = 0x0D :=
    Ascii.forall_byte (by decide +kernel)
  rcases hcases b h with rfl | rfl | rfl | rfl | rfl | rfl
  all_goals rfl

/-- Another byte of the ASCII range is not. -/
theorem dropBlank?_of_ascii {b : UInt8} (hb : b < 0x80) (h : Ascii.isSpace b = false)
    (text : Bytes) : dropBlank? (b :: text) = none := by
  rw [dropBlank?, List.findSome?_eq_none_iff]
  intro c hc
  rw [Option.eq_none_iff_forall_ne_some]
  intro rest hrest
  have hsplit := strip?_eq_some_iff.mp hrest
  cases hlead : (String.utf8EncodeChar c).reverse with
  | nil => exact String.utf8EncodeChar_ne_nil (List.reverse_eq_nil_iff.mp hlead)
  | cons d lead =>
    rw [hlead] at hsplit
    obtain ⟨rfl, -⟩ := List.cons.inj hsplit
    have hmem : b ∈ String.utf8EncodeChar c := by
      rw [← List.mem_reverse, hlead]
      exact List.mem_cons_self
    have hblanks : ∀ c ∈ Text.blanks, c.toNat < 128 → Ascii.isSpace (.ofNat c.toNat) = true :=
      List.all_iff_forall_prop.mp (by decide)
    have hspace := hblanks c hc
    rw [toNat_eq_of_mem_encode hb hmem, UInt8.ofNat_toNat, h] at hspace
    exact absurd (hspace (UInt8.lt_iff_toNat_lt.mp hb)) Bool.false_ne_true

private theorem dropBlanks_of_dropBlank? {reversed rest : Bytes}
    (h : dropBlank? reversed = some rest) : dropBlanks reversed = dropBlanks rest := by
  rw [dropBlanks]
  split
  · next hnone =>
    rw [h] at hnone
    contradiction
  · next other hsome => rw [Option.some.inj (h.symm.trans hsome)]

/-- White space at the end is trimmed. -/
theorem trimEnd_append {space : Bytes} (h : ∀ b ∈ space, Ascii.isSpace b = true) (text : Bytes) :
    trimEnd (text ++ space) = trimEnd text := by
  induction space generalizing text with
  | nil => rw [List.append_nil]
  | cons b space ih =>
    rw [List.forall_mem_cons] at h
    rw [List.append_cons, ih h.2, trimEnd, List.reverse_concat,
      dropBlanks_of_dropBlank? (dropBlank?_of_isSpace h.1 _), ← trimEnd]

/-- Behind a byte of the ASCII range that is no white space there is nothing to be trimmed. -/
theorem trimEnd_of_getLast? {text : Bytes}
    (h : ∀ b ∈ text.getLast?, b < 0x80 ∧ Ascii.isSpace b = false) : trimEnd text = text := by
  have hnone : dropBlank? text.reverse = none := by
    cases hreverse : text.reverse with
    | nil => rfl
    | cons b rest =>
      have hb := h b (by rw [← List.head?_reverse, hreverse]; rfl)
      exact dropBlank?_of_ascii hb.1 hb.2 rest
  rw [trimEnd, dropBlanks]
  split
  · exact List.reverse_reverse text
  · next hsome =>
    rw [hnone] at hsome
    contradiction

end Bytes

/-! ### What can be written -/

namespace Layout

/-- A run of white space. -/
structure Gap where
  bytes : Bytes
  isSpace : ∀ b ∈ bytes, Ascii.isSpace b = true

/-- The name of an attribute in lower case: bytes of the ASCII range that can stand in a name. -/
structure Name where
  bytes : Bytes
  ne_nil : bytes ≠ []
  isLow : ∀ b ∈ bytes, b < 0x80 ∧ Attribute.isNameByte b = true ∧ Ascii.isUpper b = false

/-- A value that needs no quotes: ASCII without white space and `>`, with no quote at its beginning
and no `/` at its end. -/
structure Bare where
  bytes : Bytes
  ne_nil : bytes ≠ []
  isBare : ∀ b ∈ bytes, b < 0x80 ∧ Ascii.isSpace b = false ∧ b ≠ Ascii.greater
  first : ∀ b ∈ bytes.head?, Ascii.isQuote b = false
  last : bytes.getLast? ≠ some Ascii.slash

/-- A value in quotes, which holds neither its own quote nor a `>`. -/
structure Quoted where
  quote : UInt8
  isQuote : Ascii.isQuote quote = true
  bytes : Bytes
  quote_not_mem : quote ∉ bytes
  greater_not_mem : Ascii.greater ∉ bytes

/-- What stands behind the name of an attribute: nothing, or a `=` and a value, which may be quoted;
white space may follow the `=`. -/
inductive Value where
  | none
  | bare (gap : Gap) (value : Bare)
  | quoted (gap : Gap) (value : Quoted)

namespace Value

/-- What is written. -/
def text : Value → Bytes
  | none => []
  | bare gap value => Ascii.equals :: (gap.bytes ++ value.bytes)
  | quoted gap value =>
    Ascii.equals :: (gap.bytes ++ value.quote :: (value.bytes ++ [value.quote]))

/-- What is meant. -/
def read : Value → Option Bytes
  | none => .none
  | bare _ value => some value.bytes
  | quoted _ value => some value.bytes

/-- Whether a quote stands at the end. -/
def isQuoted : Value → Bool
  | quoted _ _ => true
  | _ => false

end Value

/-- An attribute with the white space in front of it. -/
structure Entry where
  gap : Gap
  name : Name
  value : Value

namespace Entry

/-- What is written. -/
def text (a : Entry) : Bytes := a.gap.bytes ++ (a.name.bytes ++ a.value.text)

/-- What is meant. -/
def read (a : Entry) : Bytes × Option Bytes := (a.name.bytes, a.value.read)

end Entry

/-- The attributes one behind the other. -/
def text (entries : List Entry) : Bytes := entries.flatMap Entry.text

/-- There is white space in front of each attribute, unless a quote ends what stands before it. -/
def Separated : (quoted : Bool) → List Entry → Prop
  | _, [] => True
  | quoted, a :: entries =>
    (quoted = true ∨ a.gap.bytes ≠ []) ∧ Separated a.value.isQuoted entries

/-- The end of an attribute list: white space with or without a `/` in it. -/
structure Ending where
  before : Gap
  slash : Bool
  after : Gap

/-- What is written at the end. -/
def Ending.text (ending : Ending) : Bytes :=
  ending.before.bytes ++ ((if ending.slash then [Ascii.slash] else []) ++ ending.after.bytes)

/-! ### Bytes of a layout -/

variable {quoted : Bool} {entries : List Entry}

/-- A byte of a name belongs to the name and to nothing else. -/
theorem Name.facts (name : Name) {b : UInt8} (h : b ∈ name.bytes) :
    Attribute.continuesName b = true ∧ Ascii.isSpace b = false ∧ b ≠ Ascii.slash ∧
      b ≠ Ascii.greater := by
  have hbyte := (name.isLow b h).2.1
  simp only [Attribute.isNameByte, Bool.not_eq_true', Bool.or_eq_false_iff, beq_eq_false_iff_ne]
    at hbyte
  obtain ⟨⟨⟨⟨-, hgreater⟩, hslash⟩, hequals⟩, hspace⟩ := hbyte
  rw [Attribute.continuesName, beq_eq_false_iff_ne.mpr hequals, hspace]
  exact ⟨rfl, rfl, hslash, hgreater⟩

/-- A name is in lower case. -/
theorem Name.lower_bytes (name : Name) : name.bytes.lower = name.bytes := by
  have hbyte : ∀ b ∈ name.bytes, Ascii.toLower b = b := fun b hb ↦
    Ascii.toLower_of_not_isUpper (name.isLow b hb).2.2
  exact (List.map_congr_left hbyte).trans (List.map_id _)

/-- A name can be written in a tag. -/
theorem Name.isName (name : Name) : Attribute.isName name.bytes = true := by
  rw [Attribute.isName, Bool.and_eq_true, List.all_eq_true]
  exact ⟨by simpa using name.ne_nil, fun b hb ↦ (name.isLow b hb).2.1⟩

/-- A quote can be told from everything that ends a list or a value. -/
theorem Quoted.quote_facts (value : Quoted) :
    value.quote < 0x80 ∧ Ascii.isSpace value.quote = false ∧ value.quote ≠ Ascii.slash ∧
      value.quote ≠ Ascii.greater := by
  rcases Bool.or_eq_true_iff.mp value.isQuote with hquote | hquote
  · rw [beq_iff_eq.mp hquote]
    decide
  · rw [beq_iff_eq.mp hquote]
    decide

/-- No `>` is written before the end of the list. -/
theorem greater_not_mem_text (entries : List Entry) : Ascii.greater ∉ text entries := by
  intro hmem
  obtain ⟨a, -, hb⟩ := List.mem_flatMap.mp hmem
  have hgap : ∀ gap : Gap, Ascii.greater ∉ gap.bytes := fun gap h ↦
    absurd (gap.isSpace _ h) (by decide)
  rw [Entry.text, List.mem_append, List.mem_append] at hb
  rcases hb with hb | hb | hb
  · exact hgap _ hb
  · exact (a.name.facts hb).2.2.2 rfl
  · cases hvalue : a.value with
    | none =>
      rw [hvalue] at hb
      contradiction
    | bare gap value =>
      rw [hvalue, Value.text, List.mem_cons, List.mem_append] at hb
      rcases hb with hb | hb | hb
      · contradiction
      · exact hgap _ hb
      · exact (value.isBare _ hb).2.2 rfl
    | quoted gap value =>
      have hquote : Ascii.greater ≠ value.quote := value.quote_facts.2.2.2.symm
      rw [hvalue, Value.text, List.mem_cons, List.mem_append, List.mem_cons, List.mem_append,
        List.mem_singleton] at hb
      rcases hb with hb | hb | hb | hb | hb
      · contradiction
      · exact hgap _ hb
      · exact hquote hb
      · exact value.greater_not_mem hb
      · exact hquote hb

/-- At the end there is nothing but white space and a `/`. -/
theorem Ending.mem_text {ending : Ending} {b : UInt8} (h : b ∈ ending.text) :
    Ascii.isSpace b = true ∨ b = Ascii.slash := by
  rw [Ending.text, List.mem_append, List.mem_append] at h
  rcases h with h | h | h
  · exact .inl (ending.before.isSpace b h)
  · split at h
    · exact .inr (List.mem_singleton.mp h)
    · contradiction
  · exact .inl (ending.after.isSpace b h)

/-- White space stands in front of attributes that follow no quote. -/
theorem Separated.head? (h : Separated false entries) :
    ∀ b ∈ (text entries).head?, Ascii.isSpace b = true := by
  cases entries with
  | nil => exact fun _ hb ↦ absurd hb (by simp [text])
  | cons a entries =>
    obtain ⟨b, gap, hgap⟩ := List.exists_cons_of_ne_nil (h.1.resolve_left Bool.false_ne_true)
    intro c hc
    have hfirst : (text (a :: entries)).head? = some b := by
      rw [text, List.flatMap_cons, Entry.text, hgap]
      rfl
    rw [hfirst] at hc
    apply a.gap.isSpace
    rw [hgap, ← Option.some.inj hc]
    exact List.mem_cons_self

/-- The last byte of an attribute. -/
theorem Entry.getLast?_text (a : Entry) (before : Bytes) :
    ∀ b ∈ (before ++ a.text).getLast?,
      b < 0x80 ∧ Ascii.isSpace b = false ∧ b ≠ Ascii.slash := by
  intro b hb
  rw [Entry.text, ← List.append_assoc] at hb
  cases hvalue : a.value with
  | none =>
    rw [hvalue, Value.text, List.append_nil,
      List.getLast?_append_of_ne_nil _ a.name.ne_nil] at hb
    have hmem := List.mem_of_getLast? hb
    have hfacts := a.name.facts hmem
    exact ⟨(a.name.isLow b hmem).1, hfacts.2.1, hfacts.2.2.1⟩
  | bare gap value =>
    rw [hvalue, Value.text, List.append_cons, ← List.append_assoc, ← List.append_assoc,
      ← List.append_assoc, List.getLast?_append_of_ne_nil _ value.ne_nil] at hb
    have hfacts := value.isBare b (List.mem_of_getLast? hb)
    exact ⟨hfacts.1, hfacts.2.1, fun hslash ↦ value.last (hslash ▸ hb)⟩
  | quoted gap value =>
    have hlast : (before ++ a.gap.bytes ++ (a.name.bytes ++ a.value.text)).getLast? =
        some value.quote := by
      rw [hvalue, Value.text, List.getLast?_eq_some_iff]
      exact ⟨before ++ a.gap.bytes ++ (a.name.bytes ++
        Ascii.equals :: (gap.bytes ++ value.quote :: value.bytes)), by simp⟩
    rw [hlast] at hb
    obtain rfl := Option.some.inj hb
    obtain ⟨hascii, hspace, hslash, -⟩ := value.quote_facts
    exact ⟨hascii, hspace, hslash⟩

/-- The last byte of attributes. -/
theorem getLast?_text (entries : List Entry) :
    ∀ b ∈ (text entries).getLast?, b < 0x80 ∧ Ascii.isSpace b = false ∧ b ≠ Ascii.slash := by
  rcases List.eq_nil_or_concat entries with rfl | ⟨lead, a, rfl⟩
  · intro b hb
    contradiction
  · rw [List.concat_eq_append, text, List.flatMap_append, List.flatMap_singleton]
    exact a.getLast?_text _

/-! ### The end of the list -/

/-- Nothing but its end is trimmed from an attribute list. -/
theorem trimmed_text (entries : List Entry) (ending : Ending) :
    Attribute.trimmed (text entries ++ ending.text) = text entries := by
  have hlast := getLast?_text entries
  have hkeep : Bytes.trimEnd (text entries) = text entries :=
    Bytes.trimEnd_of_getLast? fun b hb ↦ ⟨(hlast b hb).1, (hlast b hb).2.1⟩
  have hslash : Attribute.withoutSlash (text entries) = text entries :=
    if_neg fun h ↦ (hlast _ h).2.2 rfl
  rw [Attribute.trimmed, Ending.text, ← List.append_assoc, ← List.append_assoc,
    Bytes.trimEnd_append ending.after.isSpace]
  cases ending.slash with
  | false =>
    rw [if_neg Bool.false_ne_true, List.append_nil, Bytes.trimEnd_append ending.before.isSpace,
      hkeep, hslash, hkeep]
  | true =>
    have hdrop : ∀ lead, Attribute.withoutSlash (lead ++ [Ascii.slash]) = lead := by
      intro lead
      rw [Attribute.withoutSlash, List.getLast?_concat, if_pos rfl, List.dropLast_concat]
    have hstays : Bytes.trimEnd (text entries ++ ending.before.bytes ++ [Ascii.slash]) =
        text entries ++ ending.before.bytes ++ [Ascii.slash] := by
      apply Bytes.trimEnd_of_getLast?
      rw [List.getLast?_concat]
      rintro _ ⟨⟩
      decide
    rw [if_pos rfl, hstays, hdrop, Bytes.trimEnd_append ending.before.isSpace, hkeep]

end Layout

/-! ### Reading -/

namespace Attribute

/-- What is written in an attribute list, told without the proofs that it becomes shorter. -/
theorem written_eq (text : Bytes) :
    written text =
      match text.dropWhile Ascii.isSpace with
      | [] => []
      | b :: rest =>
        match afterName (b :: rest) with
        | [] => [((b :: rest).takeWhile continuesName, none)]
        | c :: behind =>
          if c = Ascii.equals then
            ((b :: rest).takeWhile continuesName,
              some (takeValue (behind.dropWhile Ascii.isSpace)).1) ::
                written (takeValue (behind.dropWhile Ascii.isSpace)).2
          else ((b :: rest).takeWhile continuesName, none) :: written behind := by
  rw [written]
  split
  · next h => rw [h]
  · next b rest h =>
    rw [h]
    dsimp only
    split
    · next hafter => rw [hafter]
    · next c behind hafter => rw [hafter]

/-- Where there is nothing but white space no attribute is written. -/
theorem written_nil : written [] = [] := by
  rw [written_eq]
  rfl

end Attribute

namespace Layout

open Attribute

/-- A gap is passed over. -/
theorem Gap.dropWhile_append (gap : Gap) (rest : Bytes) :
    (gap.bytes ++ rest).dropWhile Ascii.isSpace = rest.dropWhile Ascii.isSpace :=
  List.dropWhile_append_of_pos gap.isSpace

/-- A gap in front of attributes is passed over. -/
theorem written_gap (gap : Gap) (rest : Bytes) : written (gap.bytes ++ rest) = written rest := by
  rw [written_eq, gap.dropWhile_append, ← written_eq]

private theorem written_name (name : Name) (rest : Bytes) :
    (∀ b ∈ rest.head?, continuesName b = false) →
      written (name.bytes ++ rest) =
        match rest with
        | [] => [(name.bytes, none)]
        | c :: behind =>
          if c = Ascii.equals then
            (name.bytes, some (takeValue (behind.dropWhile Ascii.isSpace)).1) ::
              written (takeValue (behind.dropWhile Ascii.isSpace)).2
          else (name.bytes, none) :: written behind := by
  intro hends
  obtain ⟨b, others, hname⟩ := List.exists_cons_of_ne_nil name.ne_nil
  have hall : name.bytes.all continuesName = true :=
    List.all_eq_true.mpr fun b hb ↦ (name.facts hb).1
  have hfirst : (name.bytes ++ rest).dropWhile Ascii.isSpace = b :: (others ++ rest) := by
    have hspace := (name.facts (hname ▸ List.mem_cons_self)).2.1
    rw [hname, List.cons_append, List.dropWhile_cons_of_neg (by rw [hspace]; simp)]
  obtain ⟨htake, hdrop⟩ := Bytes.takeWhile_append_of_head hall hends
  rw [hname, List.cons_append] at htake hdrop
  rw [written_eq, hfirst]
  dsimp only
  rw [afterName, hdrop, htake, ← hname]

/-- A name with white space or nothing behind it is an attribute without a value. -/
theorem written_name_of_isSpace (name : Name) {rest : Bytes}
    (hrest : ∀ b ∈ rest.head?, Ascii.isSpace b = true) :
    written (name.bytes ++ rest) = (name.bytes, none) :: written rest := by
  have hends : ∀ b ∈ rest.head?, continuesName b = false := by
    intro b hb
    rw [continuesName, hrest b hb, Bool.or_true, Bool.not_true]
  rw [written_name name _ hends]
  cases rest with
  | nil => rw [written_nil]
  | cons s rest =>
    have hs : Ascii.isSpace s = true := hrest s rfl
    have hequals : s ≠ Ascii.equals := by
      rintro rfl
      contradiction
    dsimp only
    rw [if_neg hequals, written_eq (s :: rest), List.dropWhile_cons_of_pos hs, ← written_eq]

/-- A name with a `=` behind it is an attribute with the value that follows. -/
theorem written_name_equals (name : Name) (gap : Gap) (behind : Bytes) :
    written (name.bytes ++ Ascii.equals :: (gap.bytes ++ behind)) =
      (name.bytes, some (takeValue (behind.dropWhile Ascii.isSpace)).1) ::
        written (takeValue (behind.dropWhile Ascii.isSpace)).2 := by
  have hends : ∀ b ∈ (Ascii.equals :: (gap.bytes ++ behind)).head?, continuesName b = false := by
    intro b hb
    rw [← Option.some.inj hb]
    decide
  rw [written_name name _ hends]
  dsimp only
  rw [if_pos rfl, gap.dropWhile_append]

/-- A value in quotes is read up to the closing one. -/
theorem Quoted.takeValue_append (value : Quoted) (rest : Bytes) :
    takeValue ((value.quote :: (value.bytes ++ value.quote :: rest)).dropWhile Ascii.isSpace) =
      (value.bytes, rest) := by
  have hspace := value.quote_facts.2.1
  obtain ⟨htake, hdrop⟩ := Bytes.takeWhile_ne value.quote_not_mem rest
  rw [List.dropWhile_cons_of_neg (by rw [hspace]; simp), takeValue, if_pos value.isQuote, htake,
    hdrop, List.drop_succ_cons, List.drop_zero]

/-- A value without quotes is read up to white space. -/
theorem Bare.takeValue_append (value : Bare) {rest : Bytes}
    (hrest : ∀ b ∈ rest.head?, Ascii.isSpace b = true) :
    takeValue ((value.bytes ++ rest).dropWhile Ascii.isSpace) = (value.bytes, rest) := by
  have hall : value.bytes.all (! Ascii.isSpace ·) = true := by
    rw [List.all_eq_true]
    intro b hb
    rw [(value.isBare b hb).2.1, Bool.not_false]
  have hends : ∀ b ∈ rest.head?, (!Ascii.isSpace b) = false := by
    intro b hb
    rw [hrest b hb, Bool.not_true]
  obtain ⟨htake, hdrop⟩ := Bytes.takeWhile_append_of_head hall hends
  obtain ⟨b, others, hvalue⟩ := List.exists_cons_of_ne_nil value.ne_nil
  have hspace : Ascii.isSpace b = false := (value.isBare b (hvalue ▸ List.mem_cons_self)).2.1
  have hquote : Ascii.isQuote b = false := value.first b (by rw [hvalue]; rfl)
  rw [hvalue, List.cons_append] at htake hdrop
  rw [hvalue, List.cons_append, List.dropWhile_cons_of_neg (by rw [hspace]; simp), takeValue,
    if_neg (by rw [hquote]; simp), htake, hdrop]

/-- An attribute is read whatever follows it, if that is set apart. -/
theorem written_entry (a : Entry) {rest : Bytes}
    (hrest : a.value.isQuoted = true ∨ ∀ b ∈ rest.head?, Ascii.isSpace b = true) :
    written (a.text ++ rest) = a.read :: written rest := by
  rw [Entry.text, List.append_assoc, List.append_assoc, written_gap, Entry.read]
  cases hvalue : a.value with
  | none =>
    rw [hvalue] at hrest
    rw [Value.text, List.nil_append,
      written_name_of_isSpace _ (hrest.resolve_left Bool.false_ne_true), Value.read]
  | bare gap value =>
    rw [hvalue] at hrest
    rw [Value.text, List.cons_append, List.append_assoc, written_name_equals,
      value.takeValue_append (hrest.resolve_left Bool.false_ne_true), Value.read]
  | quoted gap value =>
    rw [Value.text, List.cons_append, List.append_assoc, written_name_equals, List.cons_append,
      List.append_assoc, List.singleton_append, value.takeValue_append, Value.read]

/-- Attributes are read one after the other. -/
theorem written_text (h : Separated quoted entries) :
    written (text entries) = entries.map Entry.read := by
  induction entries generalizing quoted with
  | nil => exact written_nil
  | cons a entries ih =>
    have hrest : a.value.isQuoted = true ∨
        ∀ b ∈ (text entries).head?, Ascii.isSpace b = true := by
      cases hquoted : a.value.isQuoted with
      | true => exact .inl rfl
      | false =>
        apply Or.inr
        apply Separated.head?
        rw [← hquoted]
        exact h.2
    rw [text, List.flatMap_cons, ← text, written_entry a hrest, ih h.2, List.map_cons]

/-- From a layout the attributes are read that were laid out. -/
theorem named_text (h : Separated quoted entries) (ending : Ending) :
    named (text entries ++ ending.text) = entries.map Entry.read := by
  have hnames : (entries.map Entry.read).filter (! ·.1.isEmpty) = entries.map Entry.read := by
    rw [List.filter_eq_self, List.forall_mem_map]
    intro a _
    simpa [Entry.read] using a.name.ne_nil
  rw [named, trimmed_text, written_text h, hnames, List.map_map]
  apply List.map_congr_left
  intro a _
  rw [Function.comp_apply, Entry.read, a.name.lower_bytes]

end Layout

/-! ### Maps -/

namespace AttributeMap

private theorem entries_foldl_insert {attributes : List (Bytes × Option Bytes)} (m : AttributeMap)
    (h : (m.entries ++ attributes).Pairwise fun a b ↦ Bytes.agree a.1 b.1 = false) :
    (attributes.foldl (fun m a ↦ m.insert a.1 a.2) m).entries = m.entries ++ attributes := by
  induction attributes generalizing m with
  | nil => simp
  | cons a attributes ih =>
    have hnew : m.contains a.1 = false := by
      rw [AttributeMap.contains, List.any_eq_false]
      intro d hd
      rw [(List.pairwise_append.mp h).2.2 d hd a List.mem_cons_self]
      simp
    have hinsert : (m.insert a.1 a.2).entries = m.entries ++ [a] := by
      rw [entries_insert, hnew]
      rfl
    rw [List.foldl_cons, ih, hinsert, List.append_assoc, List.singleton_append]
    rw [hinsert, List.append_assoc, List.singleton_append]
    exact h

/-- A map of attributes no two names of which agree has all of them, in order. -/
theorem entries_ofList {attributes : List (Bytes × Option Bytes)}
    (h : attributes.Pairwise fun a b ↦ Bytes.agree a.1 b.1 = false) :
    (ofList attributes).entries = attributes :=
  entries_foldl_insert empty h

variable {name : Bytes} {entries : List Layout.Entry}

private theorem isProper_layout (hne : name ≠ []) (hname : name.all Tag.isNameByte = true)
    (hseparated : Layout.Separated false entries) (ending : Layout.Ending) :
    StartTag.IsProper ⟨name, Layout.text entries ++ ending.text⟩ where
  name_ne_nil := hne
  name_bytes := hname
  name_ends := by
    intro b hb
    dsimp only at hb
    rw [List.head?_append, Option.mem_def, Option.or_eq_some_iff] at hb
    rcases hb with hb | ⟨-, hb⟩
    · exact Tag.isNameByte_of_isSpace (hseparated.head? b hb)
    · rcases Layout.Ending.mem_text (List.mem_of_head? hb) with hspace | rfl
      · exact Tag.isNameByte_of_isSpace hspace
      · decide
  greater_not_mem := by
    rw [List.mem_append, not_or]
    refine ⟨Layout.greater_not_mem_text entries, fun hmem ↦ ?_⟩
    rcases Layout.Ending.mem_text hmem with hspace | hslash
    · contradiction
    · contradiction

/-- Reading the attributes of a start tag undoes every layout: whatever white space, quotes and end
of the tag they are written with, and whatever follows the tag, they are read in their order, be it
that all names are taken or only valid ones. -/
theorem entries_ofMarkup_layout (hne : name ≠ []) (hname : name.all Tag.isNameByte = true)
    (hseparated : Layout.Separated false entries)
    (hdistinct : entries.Pairwise fun a b ↦ a.name.bytes ≠ b.name.bytes)
    (ending : Layout.Ending) (rest : Bytes) :
    let markup := StartTag.text ⟨name, Layout.text entries ++ ending.text⟩ ++ rest
    (ofMarkup markup).entries = entries.map Layout.Entry.read ∧
      (ofMarkupValid markup).entries = entries.map Layout.Entry.read := by
  intro markup
  have htag : StartTag.ofMarkup? markup = some ⟨name, Layout.text entries ++ ending.text⟩ :=
    StartTag.ofMarkup?_eq_some_iff.mpr
      ⟨isProper_layout hne hname hseparated ending, List.prefix_append _ _⟩
  have hdisagree : (entries.map Layout.Entry.read).Pairwise fun a b ↦
      Bytes.agree a.1 b.1 = false := by
    rw [List.pairwise_map]
    apply hdistinct.imp
    intro a b hab
    rw [Bool.eq_false_iff]
    intro hagree
    apply hab
    rw [← a.name.lower_bytes, ← b.name.lower_bytes]
    exact Bytes.agree_iff.mp hagree
  have hread : (ofMarkup markup).entries = entries.map Layout.Entry.read := by
    rw [ofMarkup, htag]
    dsimp only
    rw [ofStartTag, Layout.named_text hseparated, entries_ofList hdisagree]
  refine ⟨hread, ?_⟩
  rw [ofMarkupValid, entries_retain, hread, List.filter_eq_self, List.forall_mem_map]
  intro a _
  exact a.name.isName

/-- An attribute without a value, two in quotes with nothing between them, and one without quotes in
front of the `/` of the tag. -/
theorem entries_ofMarkup_layout_mixed :
    let nothing : Layout.Gap := ⟨[], List.forall_mem_nil _⟩
    let blank : Layout.Gap := ⟨Bytes.ofString " ", List.all_iff_forall_prop.mp (by decide)⟩
    let tabs : Layout.Gap :=
      ⟨Bytes.ofString "\t\x0B", List.all_iff_forall_prop.mp (by decide)⟩
    let double : Layout.Quoted :=
      ⟨Ascii.doubleQuote, by decide, Bytes.ofString "it's <b", by decide, by decide⟩
    let single : Layout.Quoted := ⟨Ascii.singleQuote, by decide, [], by decide, by decide⟩
    let bare : Layout.Bare :=
      ⟨Bytes.ofString "1/'2", by decide, List.all_iff_forall_prop.mp (by decide),
        fun _ hb ↦ by rw [← Option.some.inj hb]; decide, by decide⟩
    let a : Layout.Name := ⟨Bytes.ofString "a", by decide, List.all_iff_forall_prop.mp (by decide)⟩
    let b : Layout.Name := ⟨Bytes.ofString "b", by decide, List.all_iff_forall_prop.mp (by decide)⟩
    let c : Layout.Name := ⟨Bytes.ofString "c", by decide, List.all_iff_forall_prop.mp (by decide)⟩
    let d : Layout.Name := ⟨Bytes.ofString "d", by decide, List.all_iff_forall_prop.mp (by decide)⟩
    let entries : List Layout.Entry := [⟨tabs, a, .none⟩, ⟨blank, b, .quoted blank double⟩,
      ⟨nothing, c, .quoted nothing single⟩, ⟨blank, d, .bare tabs bare⟩]
    let markup := StartTag.text
      ⟨Bytes.ofString "P", Layout.text entries ++ Layout.Ending.text ⟨nothing, true, blank⟩⟩ ++
        Bytes.ofString "z>"
    (markup = Bytes.ofString "<P\t\x0Ba b= \"it's <b\"c='' d=\t\x0B1/'2/ >z>" ∧
      Layout.Separated false entries ∧
        entries.Pairwise fun a b ↦ a.name.bytes ≠ b.name.bytes) ∧
      (ofMarkup markup).entries = entries.map Layout.Entry.read ∧
        (ofMarkupValid markup).entries = entries.map Layout.Entry.read := by
  intro nothing blank tabs double single bare a b c d entries markup
  have hseparated : Layout.Separated false entries :=
    ⟨.inr (by decide), .inr (by decide), .inl rfl, .inr (by decide), trivial⟩
  have hdistinct : entries.Pairwise fun a b ↦ a.name.bytes ≠ b.name.bytes := by decide
  exact ⟨⟨by decide, hseparated, hdistinct⟩, entries_ofMarkup_layout (by decide) (by decide)
    hseparated hdistinct ⟨nothing, true, blank⟩ _⟩

end AttributeMap

end MarkupSelect
