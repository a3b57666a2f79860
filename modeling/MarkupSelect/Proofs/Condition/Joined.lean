import MarkupSelect.Proofs.Condition.Anchors
import MarkupSelect.Proofs.Condition.Split
import MarkupSelect.Proofs.Text.Trim

/-!
# Joined conditions

Two conditions joined by ` OR ` are read as the groups of both, and two groups joined by ` AND ` as
the atoms of both. The first text must close its quotes, and no separator may begin in one text and
end in the next: `a = x OR` is a condition, but with ` OR b` behind it is cut a word too early.
-/

namespace MarkupSelect.Condition

variable {separator word text rest piece : List Char} {pieces others : List (List Char)}

/-! ### Pieces put together -/

/-- The quote that is open behind a text if `quote` is open in front of it. -/
def openQuote : (quote : Option Char) → List Char → Option Char
  | quote, [] => quote
  | some q, '\\' :: [] => some q
  | some q, '\\' :: _ :: text => openQuote (some q) text
  | some q, c :: text => openQuote (if c = q then none else some q) text
  | none, c :: text => openQuote (if c = '"' || c = '\'' then some c else none) text

/-- The pieces of two texts if the last piece of the first goes on as the first piece of the
second. -/
def glue : (pieces others : List (List Char)) → List (List Char)
  | [], others => others
  | [last], others => last.foldr extend others
  | piece :: next :: pieces, others => piece :: glue (next :: pieces) others

/-- A separator begins in the last of the pieces and ends in what stands behind it. -/
def Straddles (separator : List Char) (pieces : List (List Char)) (rest : List Char) : Prop :=
  ∃ n, 0 < n ∧ n < separator.length ∧
    (∃ piece, pieces.getLast? = some piece ∧ separator.take n <:+ piece) ∧
      separator.drop n <+: rest

/-- A character in front of pieces stands in one. -/
theorem extend_ne_nil (c : Char) (pieces : List (List Char)) : extend c pieces ≠ [] := by
  cases pieces <;> simp [extend]

/-- A character in front of the first text stands in front of both. -/
theorem glue_extend (hne : pieces ≠ []) (c : Char) (others : List (List Char)) :
    glue (extend c pieces) others = extend c (glue pieces others) := by
  match pieces, hne with
  | [_], _ => rfl
  | _ :: _ :: _, _ => rfl

/-- A separator in front of the first text stands in front of both. -/
theorem glue_nil_cons (hne : pieces ≠ []) (others : List (List Char)) :
    glue ([] :: pieces) others = [] :: glue pieces others := by
  match pieces, hne with
  | _ :: _, _ => rfl

/-- One piece goes on as the other. -/
theorem glue_singleton (piece other : List Char) : glue [piece] [other] = [piece ++ other] :=
  foldr_extend piece other []

/-- Behind a separator nothing goes on. -/
theorem glue_separator (hne : pieces ≠ []) (others : List (List Char)) :
    glue pieces ([] :: others) = pieces ++ others := by
  induction pieces with
  | nil => contradiction
  | cons piece pieces ih =>
    cases pieces with
    | nil => rw [glue, foldr_extend, List.append_nil, List.singleton_append]
    | cons next pieces =>
      rw [glue, ih (List.cons_ne_nil _ _)]
      rfl

/-- What straddles the end of a text does so with a character in front of the text. -/
theorem Straddles.extend (h : Straddles separator pieces rest) (c : Char) :
    Straddles separator (extend c pieces) rest := by
  obtain ⟨n, hpos, hn, ⟨piece, hlast, hpiece⟩, hrest⟩ := h
  obtain ⟨before, rfl⟩ := List.getLast?_eq_some_iff.mp hlast
  refine ⟨n, hpos, hn, ?_, hrest⟩
  cases before with
  | nil => exact ⟨c :: piece, rfl, hpiece.trans (List.suffix_cons c piece)⟩
  | cons first before =>
    exact ⟨piece, List.getLast?_eq_some_iff.mpr ⟨(c :: first) :: before, rfl⟩, hpiece⟩

/-- What straddles the end of a text does so with a piece in front of the text. -/
theorem Straddles.cons (h : Straddles separator pieces rest) (piece : List Char) :
    Straddles separator (piece :: pieces) rest := by
  obtain ⟨n, hpos, hn, ⟨last, hlast, hpiece⟩, hrest⟩ := h
  obtain ⟨before, rfl⟩ := List.getLast?_eq_some_iff.mp hlast
  exact ⟨n, hpos, hn, ⟨last, List.getLast?_eq_some_iff.mpr ⟨piece :: before, rfl⟩, hpiece⟩, hrest⟩

/-- Characters without quotes leave none open. -/
theorem openQuote_append (h : ∀ c ∈ text, c ≠ '"' ∧ c ≠ '\'') (rest : List Char) :
    openQuote none (text ++ rest) = openQuote none rest := by
  induction text with
  | nil => rfl
  | cons c text ih =>
    rw [List.forall_mem_cons] at h
    rw [List.cons_append, openQuote, if_neg (by simp [h.1]), ih h.2]

private theorem append_drop_of_isPrefix {c : Char} (hne : separator ≠ [])
    (h : separator <+: c :: text) : separator ++ text.drop (separator.length - 1) = c :: text := by
  obtain ⟨d, tail, rfl⟩ := List.exists_cons_of_ne_nil hne
  obtain ⟨after, hafter⟩ := h
  rw [List.cons_append] at hafter
  obtain ⟨rfl, rfl⟩ := List.cons_eq_cons.mp hafter
  rw [List.length_cons, Nat.add_sub_cancel, List.drop_left, List.cons_append]

/-- The pieces of a text, joined by the separator, are the text. -/
theorem intercalate_split (hne : separator ≠ []) (quote : Option Char) (skip : Nat)
    (text : List Char) :
    separator.intercalate (split separator quote skip text) = text.drop skip := by
  have hextend : ∀ {c pieces}, pieces ≠ [] →
      separator.intercalate (extend c pieces) = c :: separator.intercalate pieces := by
    intro c pieces hne
    match pieces, hne with
    | [_], _ => simp [extend]
    | _ :: _ :: _, _ => simp [extend, List.intercalate_cons_cons]
  fun_induction split separator quote skip text with
  | case1 quote skip => simp
  | case2 quote skip c text ih => simpa using ih
  | case3 q => simp
  | case4 q c text ih => rw [hextend (extend_ne_nil _ _), hextend (split_ne_nil _ _ _ _), ih]; rfl
  | case5 q c text hlone hpair ih => rw [hextend (split_ne_nil _ _ _ _), ih]; rfl
  | case6 c text hc ih => rw [hextend (split_ne_nil _ _ _ _), ih]; rfl
  | case7 c text hc hsepa ih =>
    rw [List.intercalate_cons_of_ne_nil (split_ne_nil _ _ _ _), ih, List.nil_append,
      append_drop_of_isPrefix hne (List.isPrefixOf_iff_prefix.mp hsepa)]
    rfl
  | case8 c text hc hsepa ih => rw [hextend (split_ne_nil _ _ _ _), ih]; rfl

/-- A single piece is all of the text. -/
theorem eq_of_split_eq_singleton (hne : separator ≠ [])
    (h : split separator none 0 text = [piece]) : piece = text := by
  have htext := intercalate_split hne none 0 text
  rwa [h, List.intercalate_singleton, List.drop_zero] at htext

/-- A text that does not hold the separator is one piece. -/
theorem split_of_not_isInfix (hne : separator ≠ []) (h : ¬ separator <:+: text) :
    split separator none 0 text = [text] := by
  cases hpieces : split separator none 0 text with
  | nil => exact absurd hpieces (split_ne_nil _ _ _ _)
  | cons piece others =>
    cases others with
    | nil => rw [eq_of_split_eq_singleton hne hpieces]
    | cons next others =>
      have htext := intercalate_split hne none 0 text
      rw [hpieces, List.intercalate_cons_cons, List.drop_zero] at htext
      exact absurd ⟨piece, _, htext⟩ h

/-- A text that a separator continues behind its end is one piece, and the separator straddles the
end. -/
theorem straddles_of_isPrefixOf (hne : text ≠ []) (hleads : ¬ separator <+: text)
    (h : separator <+: text ++ rest) :
    Straddles separator (split separator none 0 text) rest := by
  obtain ⟨left, rfl⟩ : text <+: separator := by
    cases List.prefix_or_prefix_of_prefix h (List.prefix_append text rest) with
    | inl hsub => exact absurd hsub hleads
    | inr hsub => exact hsub
  have hlength : text.length < (text ++ left).length := by
    have hleft : left ≠ [] := by
      rintro rfl
      exact hleads ⟨[], by rw [List.append_nil, List.append_nil]⟩
    rw [List.length_append]
    exact Nat.lt_add_of_pos_right (List.length_pos_of_ne_nil hleft)
  have hinside : ¬ text ++ left <:+: text := fun h ↦ absurd h.length_le (Nat.not_le_of_lt hlength)
  rw [split_of_not_isInfix (List.append_ne_nil_of_left_ne_nil hne left) hinside]
  refine ⟨text.length, List.length_pos_of_ne_nil hne, hlength, ⟨text, rfl, ?_⟩, ?_⟩
  · exact ⟨[], by rw [List.nil_append, List.take_left]⟩
  · rw [List.drop_left]
    rwa [List.prefix_append_right_inj] at h

private theorem extend_eq_glue {c : Char} {whole : List (List Char)} (hne : pieces ≠ [])
    (hborder : ¬ Straddles separator (extend c pieces) rest)
    (h : ¬ Straddles separator pieces rest → whole = glue pieces others) :
    extend c whole = glue (extend c pieces) others := by
  rw [glue_extend hne, h fun hstraddles ↦ hborder (hstraddles.extend c)]

/-- The pieces of a text that closes its quotes and of what stands behind it, if no separator
straddles the border. -/
theorem split_append (hne : separator ≠ []) (hsep : ∀ c ∈ separator, c ≠ '"' ∧ c ≠ '\'')
    (quote : Option Char) (skip : Nat) (text : List Char) (hskip : skip ≤ text.length)
    (hclosed : openQuote quote (text.drop skip) = none)
    (hborder : ¬ Straddles separator (split separator quote skip text) rest) :
    split separator quote skip (text ++ rest) =
      glue (split separator quote skip text) (split separator none 0 rest) := by
  -- At the end of the text the splitter is as at the beginning of the rest: it passes no separator,
  -- for the last one it met was in the text, and no quote is open.
  fun_induction split separator quote skip text with
  | case1 quote skip =>
    obtain rfl : skip = 0 := Nat.le_zero.mp hskip
    obtain rfl : quote = none := by simpa [openQuote] using hclosed
    rfl
  | case2 quote skip c text ih =>
    exact ih (by simpa using hskip) hclosed hborder
  | case3 q => simp [openQuote] at hclosed
  | case4 q c text ih =>
    apply extend_eq_glue (extend_ne_nil _ _) hborder
    intro hborder
    apply extend_eq_glue (split_ne_nil _ _ _ _) hborder
    intro hborder
    exact ih (Nat.zero_le _) (by simpa [openQuote] using hclosed) hborder
  | case5 q c text hlone hpair ih =>
    have hback : c ≠ '\\' := by
      rintro rfl
      cases text with
      | nil => exact hlone rfl rfl
      | cons d text => exact hpair d text rfl rfl
    have hstep : ∀ text, split separator (some q) 0 (c :: text) =
        extend c (split separator (if c = q then none else some q) 0 text) := by
      intro text
      simp [split, hback]
    rw [List.cons_append, hstep]
    apply extend_eq_glue (split_ne_nil _ _ _ _) hborder
    exact ih (Nat.zero_le _) (by simpa [openQuote, hback] using hclosed)
  | case6 c text hc ih =>
    rw [List.cons_append, split, if_pos hc]
    apply extend_eq_glue (split_ne_nil _ _ _ _) hborder
    exact ih (Nat.zero_le _) (by simpa [openQuote, hc] using hclosed)
  | case7 c text hc hsepa ih =>
    have hleads := List.isPrefixOf_iff_prefix.mp hsepa
    have happend : separator.isPrefixOf (c :: (text ++ rest)) = true :=
      List.isPrefixOf_iff_prefix.mpr (hleads.trans (List.prefix_append (c :: text) rest))
    rw [List.cons_append, split, if_neg hc, if_pos happend, glue_nil_cons (split_ne_nil _ _ _ _)]
    congr 1
    have hdrop := append_drop_of_isPrefix hne hleads
    have hlength := hleads.length_le
    rw [List.length_cons] at hlength
    refine ih (by omega) ?_ fun hstraddles ↦ hborder (hstraddles.cons [])
    rwa [← openQuote_append hsep, hdrop]
  | case8 c text hc hsepa ih =>
    -- Where the text holds no separator, none begins with what stands behind it.
    have happend : separator.isPrefixOf (c :: (text ++ rest)) = false := by
      rw [Bool.eq_false_iff, ne_eq, List.isPrefixOf_iff_prefix]
      intro hleads
      apply hborder
      have hstraddles := straddles_of_isPrefixOf (List.cons_ne_nil c text)
        (fun h ↦ hsepa (List.isPrefixOf_iff_prefix.mpr h)) hleads
      rwa [split, if_neg hc, if_neg hsepa] at hstraddles
    rw [List.cons_append, split_cons (by simpa using hc) happend]
    apply extend_eq_glue (split_ne_nil _ _ _ _) hborder
    exact ih (Nat.zero_le _) (by simpa [openQuote, hc] using hclosed)

/-! ### Connectives -/

/-- A word between blanks, by which conditions are joined. -/
def connective (word : List Char) : List Char := ' ' :: (word ++ [' '])

/-- There is no blank and no quote in a word. -/
def IsWord (word : List Char) : Prop := ∀ c ∈ word, c ≠ ' ' ∧ c ≠ '"' ∧ c ≠ '\''

/-- The last piece of a text ends in the word of a connective, with the blank in front of it. -/
def EndsInWord (word text : List Char) : Prop :=
  ∃ piece ∈ (split (connective word) none 0 text).getLast?, ' ' :: word <:+ piece

/-- Whether a text ends in a word is computed from its last piece. -/
instance (word text : List Char) : Decidable (EndsInWord word text) :=
  inferInstanceAs (Decidable (∃ piece ∈ (split (connective word) none 0 text).getLast?, _))

/-- `OR` holds neither a blank nor a quote. -/
theorem isWord_or : IsWord "OR".toList := by
  simp [IsWord]

/-- `AND` holds neither a blank nor a quote. -/
theorem isWord_and : IsWord "AND".toList := by
  simp [IsWord]

/-- There is no quote in a connective. -/
theorem IsWord.connective (h : IsWord word) : ∀ c ∈ connective word, c ≠ '"' ∧ c ≠ '\'' := by
  intro c hc
  simp only [Condition.connective, List.mem_cons, List.mem_append, List.not_mem_nil, or_false] at hc
  obtain rfl | hc | rfl := hc
  · decide
  · exact (h c hc).2
  · decide

/-- A connective that begins in a piece and ends behind a blank has all of its word in the piece. -/
theorem Straddles.exists_suffix (h : Straddles (connective word) pieces (' ' :: rest))
    (hword : IsWord word) : ∃ piece, pieces.getLast? = some piece ∧ ' ' :: word <:+ piece := by
  obtain ⟨n, hpos, hn, ⟨piece, hlast, hpiece⟩, hrest⟩ := h
  refine ⟨piece, hlast, ?_⟩
  cases n with
  | zero => contradiction
  | succ n =>
    rw [connective, List.length_cons, List.length_append, List.length_singleton] at hn
    rw [connective, List.drop_succ_cons] at hrest
    have hend : n = word.length := by
      by_contra hne
      have hlt : n < word.length := by omega
      rw [List.drop_append_of_le_length (Nat.le_of_lt hlt), List.drop_eq_getElem_cons hlt,
        List.cons_append, List.cons_prefix_cons] at hrest
      exact (hword _ (List.getElem_mem hlt)).1 hrest.1
    rwa [connective, List.take_succ_cons, hend, List.take_left] at hpiece

/-- Two texts joined by a connective have the pieces of both. -/
theorem split_connective (hword : IsWord word) (hclosed : openQuote none text = none)
    (hends : ¬ EndsInWord word text) (other : List Char) :
    split (connective word) none 0 (text ++ (connective word ++ other)) =
      split (connective word) none 0 text ++ split (connective word) none 0 other := by
  have hne : connective word ≠ [] := List.cons_ne_nil _ _
  rw [split_append hne hword.connective none 0 text (Nat.zero_le _) hclosed, split_separator rfl,
    glue_separator (split_ne_nil _ _ _ _)]
  exact fun h ↦ hends (h.exists_suffix hword)

/-! ### Reading -/

variable {p q : String} {P Q : Condition} {g h : List Atom}

private theorem toList_append_blank (hp : Text.trim p.toList ≠ []) (s : String) :
    Text.trim (p ++ s).toList ≠ [] := by
  rw [ne_eq, Text.trim_eq_nil_iff] at hp ⊢
  rw [String.toList_append]
  exact fun hall ↦ hp (List.forall_mem_append.mp hall).1

/-- A text that is not blank is read piece by piece. -/
theorem read_eq_ok_iff (hp : Text.trim p.toList ≠ []) :
    read p = .ok P ↔
      (split (connective "OR".toList) none 0 p.toList).mapM readGroup = .ok P.groups := by
  rw [read_of_trim_ne_nil hp]
  change (do
    let groups ← (split (connective "OR".toList) none 0 p.toList).mapM readGroup
    return (⟨groups⟩ : Condition)) = .ok P ↔ _
  cases (split (connective "OR".toList) none 0 p.toList).mapM readGroup with
  | error e => exact ⟨nofun, nofun⟩
  | ok groups =>
    constructor <;> intro hgroups <;> cases hgroups <;> rfl

/-- A text that was read has as many groups as pieces, so it has one. -/
theorem isEmpty_of_read (hp : Text.trim p.toList ≠ []) (h : read p = .ok P) :
    P.isEmpty = false := by
  have hlength := (forall₂_of_mapM ((read_eq_ok_iff hp).mp h)).length_eq
  rw [isEmpty, Bool.eq_false_iff, ne_eq, List.isEmpty_iff]
  intro hnil
  rw [hnil] at hlength
  exact split_ne_nil _ _ _ _ (List.length_eq_zero_iff.mp hlength)

/-- A text that was read as one group is one piece. -/
theorem split_of_read_singleton (hp : Text.trim p.toList ≠ []) (h : read p = .ok P)
    (hg : P.groups = [g]) :
    split (connective "OR".toList) none 0 p.toList = [p.toList] ∧ readGroup p.toList = .ok g := by
  obtain ⟨piece, hpieces, hpiece⟩ : ∃ piece,
      split (connective "OR".toList) none 0 p.toList = [piece] ∧ readGroup piece = .ok g := by
    have hread := forall₂_of_mapM ((read_eq_ok_iff hp).mp h)
    rw [hg] at hread
    generalize split (connective "OR".toList) none 0 p.toList = pieces at hread
    obtain _ | ⟨hpiece, hrest⟩ := hread
    cases hrest
    exact ⟨_, rfl, hpiece⟩
  obtain rfl := eq_of_split_eq_singleton (List.cons_ne_nil _ _) hpieces
  exact ⟨hpieces, hpiece⟩

/-- Conditions with groups hold together if one of them does. -/
theorem evaluate_append (hP : P.isEmpty = false) (hQ : Q.isEmpty = false)
    (attributes : AttributeMap) :
    evaluate ⟨P.groups ++ Q.groups⟩ attributes =
      (P.evaluate attributes || Q.evaluate attributes) := by
  have hPQ : isEmpty ⟨P.groups ++ Q.groups⟩ = false := by
    rw [isEmpty, List.isEmpty_eq_false_iff] at hP ⊢
    exact List.append_ne_nil_of_left_ne_nil hP _
  simp only [evaluate, hP, hQ, hPQ, Bool.false_or, List.any_append]

private theorem mapM_append {α β ε : Type} {f : α → Except ε β} {xs ys : List α} {us vs : List β}
    (hxs : xs.mapM f = .ok us) (hys : ys.mapM f = .ok vs) :
    (xs ++ ys).mapM f = .ok (us ++ vs) := by
  rw [List.mapM_append, hxs, hys]
  rfl

/-- Texts joined by ` OR ` are read as the groups of both. -/
theorem read_or (hp : Text.trim p.toList ≠ []) (hq : Text.trim q.toList ≠ [])
    (hP : read p = .ok P) (hQ : read q = .ok Q) (hclosed : openQuote none p.toList = none)
    (hends : ¬ EndsInWord "OR".toList p.toList) :
    read (p ++ " OR " ++ q) = .ok ⟨P.groups ++ Q.groups⟩ := by
  rw [String.append_assoc, read_eq_ok_iff (toList_append_blank hp _)]
  have htext : (p ++ (" OR " ++ q)).toList = p.toList ++ (connective "OR".toList ++ q.toList) := by
    simp [connective]
  rw [htext, split_connective isWord_or hclosed hends]
  exact mapM_append ((read_eq_ok_iff hp).mp hP) ((read_eq_ok_iff hq).mp hQ)

private theorem straddles_and
    (h : Straddles (connective "OR".toList) [connective "AND".toList] rest) :
    "OR ".toList <+: rest := by
  obtain ⟨n, hpos, hn, ⟨piece, hlast, hpiece⟩, hrest⟩ := h
  obtain rfl : connective "AND".toList = piece := by simpa using hlast
  -- Of the beginnings of ` OR ` only the blank ends ` AND `.
  have hone : n = 1 := by
    have htwo : ¬ (connective "OR".toList).take 2 <:+ connective "AND".toList := by decide
    have hthree : ¬ (connective "OR".toList).take 3 <:+ connective "AND".toList := by decide
    have hlength : (connective "OR".toList).length = 4 := rfl
    by_contra hne
    obtain rfl | rfl : n = 2 ∨ n = 3 := by omega
    · exact htwo hpiece
    · exact hthree hpiece
  rw [hone] at hrest
  exact hrest

/-- A group joined by ` AND ` to another one is still one group. -/
theorem split_or_of_and (hp : split (connective "OR".toList) none 0 text = [text])
    (hq : split (connective "OR".toList) none 0 rest = [rest])
    (hclosed : openQuote none text = none) (hends : ¬ ' ' :: "OR".toList <:+ text)
    (hbegins : ¬ "OR ".toList <+: rest) :
    split (connective "OR".toList) none 0 (text ++ (connective "AND".toList ++ rest)) =
      [text ++ (connective "AND".toList ++ rest)] := by
  have hne : connective "OR".toList ≠ [] := List.cons_ne_nil _ _
  have hand : split (connective "OR".toList) none 0 (connective "AND".toList) =
      [connective "AND".toList] := by decide
  have hrest : split (connective "OR".toList) none 0 (connective "AND".toList ++ rest) =
      [connective "AND".toList ++ rest] := by
    rw [split_append hne isWord_or.connective none 0 _ (Nat.zero_le _) (by decide), hand, hq,
      glue_singleton]
    rw [hand]
    exact fun h ↦ hbegins (straddles_and h)
  rw [split_append hne isWord_or.connective none 0 _ (Nat.zero_le _) hclosed, hp, hrest,
    glue_singleton]
  rw [hp]
  intro h
  obtain ⟨piece, hpiece, hsuffix⟩ := h.exists_suffix isWord_or
  cases hpiece
  exact hends hsuffix

/-- Groups joined by ` AND ` are read as the atoms of both. -/
theorem read_and (hp : Text.trim p.toList ≠ []) (hq : Text.trim q.toList ≠ [])
    (hP : read p = .ok P) (hQ : read q = .ok Q) (hg : P.groups = [g]) (hh : Q.groups = [h])
    (hclosed : openQuote none p.toList = none) (hends : ¬ EndsInWord "AND".toList p.toList)
    (hor : ¬ ' ' :: "OR".toList <:+ p.toList) (hbegins : ¬ "OR ".toList <+: q.toList) :
    read (p ++ " AND " ++ q) = .ok ⟨[g ++ h]⟩ := by
  obtain ⟨hpPiece, hpGroup⟩ := split_of_read_singleton hp hP hg
  obtain ⟨hqPiece, hqGroup⟩ := split_of_read_singleton hq hQ hh
  rw [String.append_assoc, read_eq_ok_iff (toList_append_blank hp _)]
  have htext : (p ++ (" AND " ++ q)).toList =
      p.toList ++ (connective "AND".toList ++ q.toList) := by
    simp [connective]
  have hgroup : readGroup (p.toList ++ (connective "AND".toList ++ q.toList)) = .ok (g ++ h) := by
    change (split (connective "AND".toList) none 0 _).mapM readAtom = _
    rw [split_connective isWord_and hclosed hends]
    exact mapM_append hpGroup hqGroup
  rw [htext, split_or_of_and hpPiece hqPiece hclosed hor hbegins, List.mapM_cons, hgroup]
  rfl

/-- Conditions compose as texts: joined by ` OR ` they are read as the groups of both, and single
groups joined by ` AND ` as one group of the atoms of both. No quote may be open behind the first
text, and its end may not be the beginning of a connective that goes on behind it; nor may the
second text take a connective from the blank of an ` AND `. -/
theorem read_joined (hp : Text.trim p.toList ≠ []) (hq : Text.trim q.toList ≠ [])
    (hP : read p = .ok P) (hQ : read q = .ok Q) (hclosed : openQuote none p.toList = none) :
    (¬ EndsInWord "OR".toList p.toList →
      ∃ c, read (p ++ " OR " ++ q) = .ok c ∧ c.groups = P.groups ++ Q.groups ∧
        ∀ attributes, c.evaluate attributes = (P.evaluate attributes || Q.evaluate attributes)) ∧
    ∀ g h, P.groups = [g] → Q.groups = [h] → ¬ EndsInWord "AND".toList p.toList →
      ¬ ' ' :: "OR".toList <:+ p.toList → ¬ "OR ".toList <+: q.toList →
      ∃ c, read (p ++ " AND " ++ q) = .ok c ∧ c.groups = [g ++ h] ∧
        ∀ attributes, c.evaluate attributes = (P.evaluate attributes && Q.evaluate attributes) := by
  constructor
  · intro hends
    exact ⟨_, read_or hp hq hP hQ hclosed hends, rfl,
      evaluate_append (isEmpty_of_read hp hP) (isEmpty_of_read hq hQ)⟩
  · intro g h hg hh hends hor hbegins
    refine ⟨_, read_and hp hq hP hQ hg hh hclosed hends hor hbegins, rfl, fun attributes ↦ ?_⟩
    simp [evaluate, isEmpty, hg, hh]

/-- The connective in quotes does not end the first condition. -/
theorem read_joined_quoted :
    let p := "a = \"x OR\""
    let q := "b is y AND d"
    let P : Condition := ⟨[[⟨"a", .equals, "x OR"⟩]]⟩
    let Q : Condition := ⟨[[⟨"b", .equals, "y"⟩, ⟨"d", .present, ""⟩]]⟩
    (Text.trim p.toList ≠ [] ∧ Text.trim q.toList ≠ [] ∧ read p = .ok P ∧ read q = .ok Q ∧
      openQuote none p.toList = none ∧ ¬ EndsInWord "OR".toList p.toList ∧
      ¬ EndsInWord "AND".toList p.toList ∧ ¬ ' ' :: "OR".toList <:+ p.toList ∧
      ¬ "OR ".toList <+: q.toList) ∧
    (∃ c, read "a = \"x OR\" OR b is y AND d" = .ok c ∧ c.groups = P.groups ++ Q.groups ∧
      ∀ attributes, c.evaluate attributes = (P.evaluate attributes || Q.evaluate attributes)) ∧
    ∃ c, read "a = \"x OR\" AND b is y AND d" = .ok c ∧
      c.groups =
        [[⟨"a", .equals, "x OR"⟩] ++ [⟨"b", .equals, "y"⟩, ⟨"d", .present, ""⟩]] ∧
      ∀ attributes, c.evaluate attributes = (P.evaluate attributes && Q.evaluate attributes) := by
  intro p q P Q
  have hp : Text.trim p.toList ≠ [] := by decide
  have hq : Text.trim q.toList ≠ [] := by decide
  have hP : read p = .ok P := by decide
  have hQ : read q = .ok Q := by decide
  have hclosed : openQuote none p.toList = none := by decide
  have hor : ¬ EndsInWord "OR".toList p.toList := by decide
  have hand : ¬ EndsInWord "AND".toList p.toList := by decide
  have hend : ¬ ' ' :: "OR".toList <:+ p.toList := by decide
  have hbegin : ¬ "OR ".toList <+: q.toList := by decide
  obtain ⟨hjoined, hmet⟩ := read_joined hp hq hP hQ hclosed
  exact ⟨⟨hp, hq, hP, hQ, hclosed, hor, hand, hend, hbegin⟩, hjoined hor,
    hmet _ _ rfl rfl hand hend hbegin⟩

/-- A value without quotes that ends in the word of a connective gives its end away to the
connective behind it, and a field with that name gives its beginning away to the one in front. -/
theorem read_joined_straddling :
    (read "a = x OR" = .ok ⟨[[⟨"a", .equals, "x OR"⟩]]⟩ ∧
      read "a = x AND" = .ok ⟨[[⟨"a", .equals, "x AND"⟩]]⟩ ∧
      read "b" = .ok ⟨[[⟨"b", .present, ""⟩]]⟩ ∧
      read "OR = 1" = .ok ⟨[[⟨"or", .equals, "1"⟩]]⟩) ∧
    read ("a = x OR" ++ " OR " ++ "b") = .error (.unknownOperator "OR" "b") ∧
      read ("a = x OR" ++ " AND " ++ "b") = .error (.unknownOperator "AND" "b") ∧
      read ("a = x AND" ++ " AND " ++ "b") = .error (.unknownOperator "AND" "b") ∧
      read ("b" ++ " AND " ++ "OR = 1") = .error (.unknownOperator "b" "AND") := by
  decide

end MarkupSelect.Condition
