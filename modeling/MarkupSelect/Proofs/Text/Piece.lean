import MarkupSelect.Text.Search

/-!
# Pieces of a text

A piece stands in a text at an offset. Pieces of pieces are pieces, their offsets added; this one
law carries every offset from the place where it was found to the document. A run of bytes with a
property is the piece up to the first byte without it.
-/

namespace MarkupSelect

namespace Bytes

/-- The piece is what the text holds from the offset on, as far as the piece goes. -/
def StandsAt (piece : Bytes) (offset : Nat) (text : Bytes) : Prop :=
  ∃ before after, text = before ++ piece ++ after ∧ before.length = offset

/-- A piece ends inside the text. -/
theorem StandsAt.length_le {piece text : Bytes} {offset : Nat} (h : piece.StandsAt offset text) :
    offset + piece.length ≤ text.length := by
  obtain ⟨before, after, rfl, rfl⟩ := h
  simp only [List.length_append]
  omega

/-- A piece can be cut out of the text. -/
theorem StandsAt.take_drop {piece text : Bytes} {offset : Nat} (h : piece.StandsAt offset text) :
    (text.drop offset).take piece.length = piece := by
  obtain ⟨before, after, rfl, rfl⟩ := h
  simp

/-- A piece is the beginning of what follows its offset. -/
theorem StandsAt.prefix_drop {piece text : Bytes} {offset : Nat} (h : piece.StandsAt offset text) :
    piece <+: text.drop offset := by
  obtain ⟨before, after, rfl, rfl⟩ := h
  simp

/-- A piece of a piece is a piece of the text. -/
theorem StandsAt.trans {inner piece text : Bytes} {i offset : Nat} (hi : inner.StandsAt i piece)
    (h : piece.StandsAt offset text) : inner.StandsAt (offset + i) text := by
  obtain ⟨before, after, rfl, rfl⟩ := h
  obtain ⟨lead, rest, rfl, rfl⟩ := hi
  exact ⟨before ++ lead, rest ++ after, by simp, by simp⟩

/-- A beginning of what follows an offset stands at that offset. -/
theorem standsAt_of_prefix_drop {piece text : Bytes} {offset : Nat} (ho : offset ≤ text.length)
    (h : piece <+: text.drop offset) : piece.StandsAt offset text := by
  obtain ⟨after, h⟩ := h
  refine ⟨text.take offset, after, ?_, by simp [ho]⟩
  rw [List.append_assoc, h, List.take_append_drop]

/-! ### Runs -/

/-- A run of bytes with a property ends where a byte without it follows. -/
theorem takeWhile_append_of_head {p : UInt8 → Bool} {s t : Bytes} (hs : s.all p = true)
    (ht : ∀ b ∈ t.head?, p b = false) : (s ++ t).takeWhile p = s ∧ (s ++ t).dropWhile p = t := by
  have hp := List.all_eq_true.mp hs
  rw [List.takeWhile_append_of_pos hp, List.dropWhile_append_of_pos hp]
  cases t with
  | nil => simp
  | cons b t =>
    have hb : p b = false := ht b rfl
    simp [hb]

/-- A run without a byte ends where the byte follows. -/
theorem takeWhile_ne {b : UInt8} {s : Bytes} (h : b ∉ s) (t : Bytes) :
    (s ++ b :: t).takeWhile (· != b) = s ∧ (s ++ b :: t).dropWhile (· != b) = b :: t := by
  apply takeWhile_append_of_head
  · rw [List.all_eq_true]
    intro c hc
    simpa using fun he : c = b ↦ h (he ▸ hc)
  · simp

/-- A byte of two pieces one behind the other lies in the one or in the other. -/
theorem append_eq_append_cons {s t before after : Bytes} {b : UInt8}
    (h : s ++ t = before ++ b :: after) :
    (∃ rest, s = before ++ b :: rest ∧ after = rest ++ t) ∨
      ∃ lead, t = lead ++ b :: after ∧ before = s ++ lead := by
  rcases List.append_eq_append_iff.mp h with ⟨lead, hbefore, ht⟩ | ⟨rest, hs, hafter⟩
  · exact .inr ⟨lead, ht, hbefore⟩
  · cases rest with
    | nil => exact .inr ⟨[], hafter.symm, by rw [hs, List.append_nil, List.append_nil]⟩
    | cons c rest =>
      obtain ⟨rfl, hrest⟩ := List.cons.inj hafter
      exact .inl ⟨rest, hs, hrest⟩

end Bytes

/-!
### Literals and angle brackets

What a literal found in a text says about the bytes of the text. A literal that opens with `<` and
holds no other `<` can only be found at a `<`, and no two of its occurrences overlap.
-/

namespace Ascii

/-- The lower case of a byte is a byte that is no letter only if it is the byte itself. -/
theorem toLower_eq_iff {b c : UInt8} (hc : isLetter c = false) : toLower b = c ↔ b = c := by
  have hupper : isUpper b = true → isLetter (toLower b) = true :=
    forall_byte (p := fun b ↦ isUpper b = true → isLetter (toLower b) = true) (by decide +kernel) b
  by_cases hb : isUpper b = true
  · constructor
    · rintro rfl
      rw [hupper hb] at hc
      contradiction
    · rintro rfl
      rw [isLetter, hb] at hc
      contradiction
  · rw [toLower, if_neg hb]

end Ascii

namespace Bytes

/-- A literal begins a text exactly when it agrees with as many bytes of the text as it has. -/
theorem beginsWith_iff_take {literal text : Bytes} :
    beginsWith literal text = true ↔ lower (text.take literal.length) = lower literal := by
  rw [beginsWith_iff, List.prefix_iff_eq_take, length_lower, lower, lower, lower, List.map_take,
    eq_comm]

/-- A literal begins a text exactly when it agrees with a beginning of the text. -/
theorem beginsWith_iff_exists {literal text : Bytes} :
    beginsWith literal text = true ↔
      ∃ lead rest, text = lead ++ rest ∧ lead.lower = literal.lower := by
  rw [beginsWith_iff_take]
  constructor
  · intro h
    exact ⟨_, text.drop literal.length, (List.take_append_drop _ _).symm, h⟩
  · rintro ⟨lead, rest, rfl, h⟩
    have hlength : lead.length = literal.length := by simpa using congrArg List.length h
    rw [← hlength, List.take_left, h]

/-- A literal without a byte that is no letter ends before that byte. -/
theorem beginsWith_append_cons_iff {literal text rest : Bytes} {b : UInt8}
    (hb : Ascii.isLetter b = false) (hl : b ∉ literal) :
    beginsWith literal (text ++ b :: rest) = true ↔ beginsWith literal text = true := by
  rw [beginsWith_iff_exists, beginsWith_iff_exists]
  constructor
  · rintro ⟨lead, behind, hsplit, hlead⟩
    rcases append_eq_append_cons hsplit.symm with ⟨others, rfl, -⟩ | ⟨others, -, rfl⟩
    · exfalso
      have hmem : Ascii.toLower b ∈ literal.lower := by
        rw [← hlead]
        exact List.mem_map_of_mem (List.mem_append_right _ List.mem_cons_self)
      obtain ⟨c, hc, hlower⟩ := List.mem_map.mp hmem
      rw [(Ascii.toLower_eq_iff hb).mpr rfl, Ascii.toLower_eq_iff hb] at hlower
      exact hl (hlower ▸ hc)
    · exact ⟨lead, others, rfl, hlead⟩
  · rintro ⟨lead, behind, rfl, hlead⟩
    exact ⟨lead, behind ++ b :: rest, List.append_assoc _ _ _, hlead⟩

/-- A literal that opens with `<` is found only in front of a `<`. -/
theorem head?_of_beginsWith {literal text : Bytes}
    (h : beginsWith (Ascii.less :: literal) text = true) :
    text.head? = some Ascii.less := by
  cases text with
  | nil => simp [beginsWith] at h
  | cons b text =>
    simp only [beginsWith, Bool.and_eq_true, beq_iff_eq] at h
    have : Ascii.toLower b = Ascii.less := h.1.symm.trans (by decide)
    rw [List.head?_cons, (Ascii.toLower_eq_iff rfl).mp this]

/-- Behind its first byte a literal found covers no `<` unless it holds one. -/
theorem not_beginsWith_drop {literal other text : Bytes} {j : Nat} (hl : Ascii.less ∉ literal)
    (h : beginsWith (Ascii.less :: literal) text = true) (hj : 0 < j)
    (hlt : j < literal.length + 1) :
    beginsWith (Ascii.less :: other) (text.drop j) = false := by
  obtain ⟨lead, rest, rfl, hlead⟩ := beginsWith_iff_exists.mp h
  have hlen : lead.length = literal.length + 1 := by simpa using congrArg List.length hlead
  refine Bool.eq_false_iff.mpr fun hother ↦ hl ?_
  have hhead := head?_of_beginsWith hother
  rw [List.head?_drop, List.getElem?_append_left (by omega)] at hhead
  have hbyte := congrArg (·[j]?) hlead
  obtain ⟨i, rfl⟩ : ∃ i, j = i + 1 := ⟨j - 1, by omega⟩
  simp only [lower, List.getElem?_map, List.getElem?_cons_succ, hhead, Option.map_some] at hbyte
  obtain ⟨b, hb, hbl⟩ := Option.map_eq_some_iff.mp hbyte.symm
  have : b = Ascii.less := (Ascii.toLower_eq_iff rfl).mp (hbl.trans (by decide))
  exact this ▸ List.mem_of_getElem? hb

end Bytes

end MarkupSelect
