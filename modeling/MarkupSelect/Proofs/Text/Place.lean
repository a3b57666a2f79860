import MarkupSelect.Proofs.Text.Piece
import MarkupSelect.Text.Cursor

/-!
# Which places a search finds

A search that goes on behind each hit passes over a place only if a hit before it reaches beyond it.
For the two kinds of literals that are searched this cannot be: a `<` with a name holds no second
`<`, and an attribute name behind white space holds no white space.
-/

namespace MarkupSelect.Place

private theorem mem_hits {literal before : Bytes} (moved : Bytes) {skip : Nat} {p : Place}
    (hl : literal ≠ []) (hp : Bytes.beginsWith literal p.after = true)
    (hbefore : p.before = moved.reverse ++ before) (hskip : skip ≤ moved.length)
    (hfree : ∀ j < moved.length, Bytes.beginsWith literal ((moved ++ p.after).drop j) = true →
      j + literal.length ≤ moved.length) :
    p ∈ hits literal skip before (moved ++ p.after) := by
  induction moved generalizing skip before with
  | nil =>
    obtain rfl : skip = 0 := by simpa using hskip
    rw [List.reverse_nil, List.nil_append] at hbefore
    rw [List.nil_append]
    cases hafter : p.after with
    | nil =>
      rw [hafter] at hp
      have := Bytes.length_le_of_beginsWith hp
      exact absurd (List.length_eq_zero_iff.mp (Nat.le_zero.mp this)) hl
    | cons b after =>
      rw [hafter] at hp
      have hself : p = ⟨before, b :: after⟩ := by
        rw [← hbefore, ← hafter]
      simp [hits, hp, hself]
  | cons b moved ih =>
    have hlater : ∀ k ≤ moved.length, p ∈ hits literal k (b :: before) (moved ++ p.after) := by
      intro k hk
      apply ih (by simp [hbefore]) hk
      intro j hj hb
      have := hfree (j + 1) (by simpa using hj) hb
      simp only [List.length_cons] at this
      omega
    rw [List.cons_append, hits]
    split
    · next h =>
      rw [Bool.and_eq_true] at h
      have := hfree 0 (by simp) h.2
      simp only [List.length_cons] at this
      exact List.mem_cons_of_mem _ (hlater _ (by omega))
    · simp only [List.length_cons] at hskip
      exact hlater _ (by omega)

private theorem mem_all_of_free {literal : Bytes} {p : Place} (hl : literal ≠ [])
    (hp : Bytes.beginsWith literal p.after = true)
    (hfree : ∀ j < p.offset, Bytes.beginsWith literal (p.text.drop j) = true →
      j + literal.length ≤ p.offset) :
    p ∈ all literal p.text := by
  apply mem_hits p.before.reverse hl hp (by simp) (Nat.zero_le _)
  intro j hj hb
  rw [List.length_reverse] at hj ⊢
  exact hfree j hj hb

/-- What lies behind a place is what is left of its text. -/
theorem drop_offset (p : Place) : p.text.drop p.offset = p.after := by
  simp [text, offset]

/-- Every place found lies in the text, and the literal stands there. -/
theorem of_mem_all {literal text : Bytes} {p : Place} (h : p ∈ all literal text) :
    p.text = text ∧ Bytes.beginsWith literal p.after = true :=
  ⟨by simpa using text_of_mem_hits h, beginsWith_of_mem_hits h⟩

private theorem le_offset_of_mem_hits {literal before after : Bytes} {skip : Nat} {p : Place}
    (h : p ∈ hits literal skip before after) : before.length ≤ p.offset := by
  induction after generalizing skip before with
  | nil => contradiction
  | cons b after ih =>
    have hlater : ∀ {k}, p ∈ hits literal k (b :: before) after → before.length ≤ p.offset :=
      fun h ↦ Nat.le_of_succ_le (ih h)
    rw [hits] at h
    split at h
    · rcases List.mem_cons.mp h with rfl | h
      · exact Nat.le_refl _
      · exact hlater h
    · exact hlater h

private theorem ascending_hits (literal : Bytes) (skip : Nat) (before after : Bytes) :
    (hits literal skip before after).Pairwise fun p q ↦ p.offset < q.offset := by
  induction after generalizing skip before with
  | nil => exact .nil
  | cons b after ih =>
    rw [hits]
    split
    · rw [List.pairwise_cons]
      exact ⟨fun p hp ↦ le_offset_of_mem_hits hp, ih _ _⟩
    · exact ih _ _

/-- The places found ascend. -/
theorem ascending_all (literal text : Bytes) :
    (all literal text).Pairwise fun p q ↦ p.offset < q.offset := ascending_hits _ _ _ _

/-- A literal that opens with its only `<` is found wherever it stands. -/
theorem mem_all_less_iff {name text : Bytes} {p : Place} (hn : Ascii.less ∉ name) :
    p ∈ all (Ascii.less :: name) text ↔
      p.text = text ∧ Bytes.beginsWith (Ascii.less :: name) p.after = true := by
  constructor
  · exact of_mem_all
  rintro ⟨rfl, hp⟩
  apply mem_all_of_free (by simp) hp
  intro j hj hb
  apply Nat.le_of_not_lt
  intro hlt
  have hdrop : (p.text.drop j).drop (p.offset - j) = p.after := by
    rw [List.drop_drop, Nat.add_sub_cancel' (Nat.le_of_lt hj), drop_offset]
  have hno :
      Bytes.beginsWith (Ascii.less :: name) ((p.text.drop j).drop (p.offset - j)) = false := by
    rw [List.length_cons] at hlt
    exact Bytes.not_beginsWith_drop hn hb (by omega) (by omega)
  rw [hdrop, hp] at hno
  contradiction

/-- A literal without white space is found wherever it stands behind white space. -/
theorem mem_all_of_space {name : Bytes} {p : Place} (hne : name ≠ [])
    (hn : ∀ b ∈ name, Ascii.isSpace b = false) (hspace : p.before.head?.any Ascii.isSpace = true)
    (hp : Bytes.beginsWith name p.after = true) : p ∈ all name p.text := by
  apply mem_all_of_free hne hp
  intro j hj hb
  apply Nat.le_of_not_lt
  intro hlt
  -- The white space in front of the place would lie inside the earlier hit.
  obtain ⟨s, hs, hsp⟩ : ∃ s, p.before.head? = some s ∧ Ascii.isSpace s = true := by
    simpa [Option.any_eq_true] using hspace
  obtain ⟨before, hbefore⟩ : ∃ before, p.before = s :: before := by
    cases hcase : p.before with
    | nil => simp [hcase] at hs
    | cons b before =>
      rw [hcase] at hs
      exact ⟨before, by rw [Option.some.inj hs]⟩
  obtain ⟨lead, rest, hsplit, hlead⟩ := Bytes.beginsWith_iff_exists.mp hb
  have hlen : lead.length = name.length := by simpa using congrArg List.length hlead
  have hoffset : p.offset = before.length + 1 := by simp [offset, hbefore]
  have hat : p.text[before.length]? = some s := by
    simp [text, hbefore]
  have hat' : lead[before.length - j]? = some s := by
    have hget := congrArg (·[before.length - j]?) hsplit
    rw [List.getElem?_drop, List.getElem?_append_left (by omega),
      Nat.add_sub_cancel' (by omega), hat] at hget
    exact hget.symm
  have hname := congrArg (·[before.length - j]?) hlead
  simp only [Bytes.lower, List.getElem?_map, hat', Option.map_some] at hname
  obtain ⟨b, hb', hbl⟩ := Option.map_eq_some_iff.mp hname.symm
  have hno := hn b (List.mem_of_getElem? hb')
  rw [← Ascii.isSpace_toLower, hbl, Ascii.isSpace_toLower, hsp] at hno
  contradiction

end MarkupSelect.Place
