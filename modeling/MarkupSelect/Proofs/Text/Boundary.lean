import MarkupSelect.Proofs.Text.Piece

/-!
# Boundaries of characters

In the encoding of a string a byte of the ASCII range is a character by itself. So the places in
front of it and behind it are boundaries of characters. A piece of a string that lies between two
boundaries can be cut there, and in front of the encoding of any character.
-/

namespace MarkupSelect.Bytes

private theorem length_ofChars (cs : List Char) :
    (ofChars cs).length = (String.ofList cs).utf8ByteSize := by
  induction cs with
  | nil => rfl
  | cons c cs ih =>
    rw [ofChars_cons, List.length_append, ih, String.ofList_cons]
    simp

/-- A byte of the ASCII range in the encoding of a character is all of the encoding. -/
theorem encode_eq_singleton {c : Char} {b : UInt8} (hb : b < 0x80)
    (h : b ∈ String.utf8EncodeChar c) : String.utf8EncodeChar c = [b] := by
  have hlt : b.toNat < 128 := UInt8.lt_iff_toNat_lt.mp hb
  unfold String.utf8EncodeChar at h ⊢
  dsimp only at h ⊢
  split at h
  next hc => rw [if_pos hc, List.mem_singleton.mp h]
  next =>
    -- In the longer encodings every byte is at least 0x80.
    exfalso
    split at h
    · simp only [List.mem_cons, List.not_mem_nil, or_false] at h
      rcases h with rfl | rfl <;> simp only [UInt8.toNat_ofNat'] at hlt <;> omega
    · split at h
      · simp only [List.mem_cons, List.not_mem_nil, or_false] at h
        rcases h with rfl | rfl | rfl <;> simp only [UInt8.toNat_ofNat'] at hlt <;> omega
      · simp only [List.mem_cons, List.not_mem_nil, or_false] at h
        rcases h with rfl | rfl | rfl | rfl <;> simp only [UInt8.toNat_ofNat'] at hlt <;> omega

/-- The character in whose encoding a byte of the ASCII range stands is the one of that number. -/
theorem toNat_eq_of_mem_encode {c : Char} {b : UInt8} (hb : b < 0x80)
    (h : b ∈ String.utf8EncodeChar c) : c.toNat = b.toNat := by
  have hone := encode_eq_singleton hb h
  have hsize : c.utf8Size = 1 := by simpa using congrArg List.length hone
  have hval : c.toNat ≤ 127 := UInt32.le_iff_toNat_le.mp (Char.utf8Size_eq_one_iff.mp hsize)
  rw [String.utf8EncodeChar_eq_singleton hsize] at hone
  have hc : c.val.toUInt8 = b := by simpa using hone
  have hnat : b.toNat = c.toNat % 256 := by rw [← hc, UInt32.toNat_toUInt8, Char.toNat_val]
  omega

private theorem exists_take_of_ascii {cs : List Char} {before after : Bytes} {b : UInt8}
    (hb : b < 0x80) (h : ofChars cs = before ++ b :: after) :
    ∃ i, (ofChars (cs.take i)).length = before.length ∧
      (ofChars (cs.take (i + 1))).length = before.length + 1 := by
  induction cs generalizing before with
  | nil => simp at h
  | cons c cs ih =>
    rw [ofChars_cons] at h
    rcases List.append_eq_append_iff.mp h with ⟨rest, rfl, hrest⟩ | ⟨rest, hc, hafter⟩
    · obtain ⟨i, h₁, h₂⟩ := ih hrest
      exact ⟨i + 1, by simp [h₁], by simp [h₂, Nat.add_assoc]⟩
    · cases rest with
      | nil =>
        have hrest : ofChars cs = [] ++ b :: after := hafter.symm
        obtain ⟨i, h₁, h₂⟩ := ih hrest
        rw [List.append_nil] at hc
        refine ⟨i + 1, ?_, ?_⟩
        · rw [List.take_succ_cons, ofChars_cons, List.length_append, h₁, hc, List.length_nil,
            Nat.add_zero]
        · rw [List.take_succ_cons, ofChars_cons, List.length_append, h₂, hc, List.length_nil]
      | cons d rest =>
        obtain ⟨rfl, rfl⟩ := List.cons.inj hafter
        have hmem : b ∈ String.utf8EncodeChar c := by simp [hc]
        have hsingle := encode_eq_singleton hb hmem
        rw [hsingle, eq_comm, List.append_eq_singleton_iff] at hc
        obtain ⟨rfl, -⟩ : before = [] ∧ _ := hc.resolve_right (by simp)
        exact ⟨0, rfl, by simp [hsingle]⟩

/-- In front of a byte of the ASCII range and behind it lie boundaries of characters. -/
theorem isValid_of_ascii {s : String} {before after : Bytes} {b : UInt8} (hb : b < 0x80)
    (h : ofString s = before ++ b :: after) :
    (⟨before.length⟩ : String.Pos.Raw).IsValid s ∧
      (⟨before.length + 1⟩ : String.Pos.Raw).IsValid s := by
  obtain ⟨i, h₁, h₂⟩ := exists_take_of_ascii hb h
  rw [length_ofChars] at h₁ h₂
  exact ⟨String.Pos.Raw.isValid_iff_exists_take_toList.mpr ⟨i, h₁.symm⟩,
    String.Pos.Raw.isValid_iff_exists_take_toList.mpr ⟨i + 1, h₂.symm⟩⟩

/-! ### Pieces between boundaries -/

private theorem toByteArray_ofString (s : String) : (ofString s).toByteArray = s.toByteArray := by
  rw [← String.utf8Encode_toList]
  rfl

private theorem length_ofString (s : String) : (ofString s).length = s.utf8ByteSize := by
  rw [← String.size_toByteArray, ← toByteArray_ofString, List.size_toByteArray]

/-- In front of the encoding of a character lies a boundary. -/
theorem isValid_of_encode {s : String} {before after : Bytes} {c : Char}
    (h : ofString s = before ++ String.utf8EncodeChar c ++ after) :
    (⟨before.length⟩ : String.Pos.Raw).IsValid s := by
  have hlt : before.length < s.utf8ByteSize := by
    have := c.utf8Size_pos
    rw [← length_ofString, h, List.length_append, List.length_append, String.length_utf8EncodeChar]
    omega
  rw [String.Pos.Raw.isValid_iff_isUTF8FirstByte]
  refine .inr ⟨String.Pos.Raw.lt_iff.mpr hlt, ?_⟩
  simp only [String.getUTF8Byte, ← toByteArray_ofString, List.getElem_toByteArray, h,
    List.append_assoc, List.getElem_append_right (Nat.le_refl _), Nat.sub_self]
  rw [List.getElem_append_left (by simpa using c.utf8Size_pos)]
  exact UInt8.isUTF8FirstByte_getElem_zero_utf8EncodeChar

/-- A piece of a string that stands at an offset and is cut out between characters. -/
structure IsCut (source : String) (offset : Nat) (piece : Bytes) : Prop where
  stands : piece.StandsAt offset (ofString source)
  first : (⟨offset⟩ : String.Pos.Raw).IsValid source
  last : (⟨offset + piece.length⟩ : String.Pos.Raw).IsValid source

namespace IsCut

variable {source : String} {offset : Nat} {s t : Bytes} {b : UInt8}

/-- A string is a piece of itself. -/
theorem whole (source : String) : IsCut source 0 (ofString source) := by
  refine ⟨⟨[], [], by simp, rfl⟩, String.Pos.Raw.isValid_zero, ?_⟩
  rw [Nat.zero_add, length_ofString]
  exact String.Pos.Raw.isValid_rawEndPos

/-- A piece is cut in two at a boundary inside it. -/
theorem split (h : IsCut source offset (s ++ t))
    (hmid : (⟨offset + s.length⟩ : String.Pos.Raw).IsValid source) :
    IsCut source offset s ∧ IsCut source (offset + s.length) t := by
  obtain ⟨⟨before, after, hsplit, hlength⟩, hfirst, hlast⟩ := h
  refine ⟨⟨⟨before, t ++ after, ?_, hlength⟩, hfirst, hmid⟩,
    ⟨⟨before ++ s, after, ?_, ?_⟩, hmid, ?_⟩⟩
  · simp [hsplit]
  · simp [hsplit]
  · rw [List.length_append, hlength]
  · rwa [Nat.add_assoc, ← List.length_append]

/-- A piece is cut in front of a byte of the ASCII range and behind it. -/
theorem around (h : IsCut source offset (s ++ b :: t)) (hb : b < 0x80) :
    IsCut source offset s ∧ IsCut source (offset + s.length) (b :: t) ∧
      IsCut source (offset + s.length + 1) t := by
  have hbounds : (⟨offset + s.length⟩ : String.Pos.Raw).IsValid source ∧
      (⟨offset + s.length + 1⟩ : String.Pos.Raw).IsValid source := by
    obtain ⟨before, after, hsplit, hlength⟩ := h.stands
    have hbytes : ofString source = (before ++ s) ++ b :: (t ++ after) := by simp [hsplit]
    have hvalid := isValid_of_ascii hb hbytes
    rwa [List.length_append, hlength] at hvalid
  obtain ⟨hlead, hrest⟩ := h.split hbounds.1
  have hbehind : IsCut source (offset + s.length) ([b] ++ t) := hrest
  exact ⟨hlead, hrest, (hbehind.split hbounds.2).2⟩

/-- A piece is cut in front of the encoding of a character. -/
theorem encode {c : Char} (h : IsCut source offset (s ++ String.utf8EncodeChar c)) :
    IsCut source offset s := by
  obtain ⟨before, after, hsplit, hlength⟩ := h.stands
  have hbytes : ofString source = (before ++ s) ++ String.utf8EncodeChar c ++ after := by
    simp [hsplit]
  have hvalid := isValid_of_encode hbytes
  rw [List.length_append, hlength] at hvalid
  exact (h.split hvalid).1

/-- A piece is cut behind a run of bytes that a byte of the ASCII range ends. -/
theorem takeWhile {p : UInt8 → Bool} (hp : ∀ b, p b = false → b < 0x80)
    (h : IsCut source offset s) :
    IsCut source offset (s.takeWhile p) ∧
      IsCut source (offset + (s.takeWhile p).length) (s.dropWhile p) := by
  rw [← List.takeWhile_append_dropWhile (p := p) (l := s)] at h
  apply h.split
  cases hdrop : s.dropWhile p with
  | nil =>
    rw [hdrop, List.append_nil] at h
    exact h.last
  | cons b rest =>
    have hhead := List.head?_dropWhile_not p s
    rw [hdrop] at hhead h
    exact (h.around (hp b (by simpa using hhead))).2.1.first

/-- A piece is cut behind a run of bytes of the ASCII range. -/
theorem dropWhile {p : UInt8 → Bool} (hp : ∀ b, p b = true → b < 0x80)
    (h : IsCut source offset s) :
    IsCut source (offset + (s.takeWhile p).length) (s.dropWhile p) := by
  induction s generalizing offset with
  | nil => exact h
  | cons b s ih =>
    cases hb : p b with
    | false =>
      rw [List.takeWhile_cons_of_neg (by simp [hb]), List.dropWhile_cons_of_neg (by simp [hb])]
      exact h
    | true =>
      rw [List.takeWhile_cons_of_pos hb, List.dropWhile_cons_of_pos hb, List.length_cons,
        Nat.add_comm _ 1, ← Nat.add_assoc]
      exact ih (h.around (s := []) (hp b hb)).2.2

end IsCut
end MarkupSelect.Bytes
