import MarkupSelect.Element
import MarkupSelect.Proofs.Tag
import MarkupSelect.Proofs.Text.Search

/-!
# The end of an element by its nesting depth

The end tag of an element is sought by two cursors that never count. Here the search is compared
with a scan that does: from behind the name of the start tag it adds one to a depth at each start
tag of the name, takes one off at each end tag, and ends where the depth is 0. The two agree on
every text, balanced or not.

Between the two stand the lists of all positions of start tags and of end tags: the cursors pair
these lists entry by entry, and the depth is one more than the number of start tags still waiting
for a partner.
-/

namespace MarkupSelect.Element

/-- The end tag at which the depth first becomes 0, where `text` lies at `position`: the position
behind it. -/
def depthEnd? (name : Bytes) (depth position : Nat) : Bytes → Option Nat
  | [] => none
  | b :: text =>
    if startsTag name (b :: text) then depthEnd? name (depth + 1) (position + 1) text
    else if Bytes.beginsWith (endTag name) (b :: text) then
      if depth - 1 = 0 then some (position + (endTag name).length)
      else depthEnd? name (depth - 1) (position + 1) text
    else depthEnd? name depth (position + 1) text

/-- The offset behind an element found by counting the depth from behind the name of its start tag;
without an end tag at depth 0 the element ends with its start tag. -/
def endByDepth (text : Bytes) (offset : Nat) (tag : StartTag) : Nat :=
  let behind := offset + 1 + tag.name.length
  (depthEnd? tag.name 1 behind (text.drop behind)).getD (offset + tag.length)

/-! ### All positions of a token -/

/-- All positions at which the rest of the text has a property, where `text` lies at `position`. -/
def positions (p : Bytes → Bool) (position : Nat) : Bytes → List Nat
  | [] => []
  | b :: text =>
    if p (b :: text) then position :: positions p (position + 1) text
    else positions p (position + 1) text

private theorem positions_bounds {p : Bytes → Bool} {position i : Nat} {text : Bytes}
    (h : i ∈ positions p position text) : position ≤ i := by
  induction text generalizing position with
  | nil => simp [positions] at h
  | cons b text ih =>
    simp only [positions] at h
    split at h
    · rcases List.mem_cons.mp h with rfl | h
      · exact Nat.le_refl _
      · exact Nat.le_of_succ_le (ih h)
    · exact Nat.le_of_succ_le (ih h)

private theorem positions_skip {p : Bytes → Bool} {k position : Nat} {text : Bytes}
    (h : ∀ j, j < k → p (text.drop j) = false) :
    positions p position text = positions p (position + k) (text.drop k) := by
  induction k generalizing position text with
  | zero => simp
  | succ k ih =>
    cases text with
    | nil => simp [positions]
    | cons b text =>
      have hb : p (b :: text) = false := h 0 (Nat.zero_lt_succ k)
      rw [positions, if_neg (by simp [hb]), List.drop_succ_cons,
        ih fun j hj ↦ h (j + 1) (Nat.succ_lt_succ hj), Nat.add_assoc, Nat.add_comm 1]

private theorem positions_cons {p : Bytes → Bool} {position i : Nat} {text : Bytes}
    {rest : List Nat} (h : positions p position text = i :: rest) :
    position ≤ i ∧ p (text.drop (i - position)) = true ∧
      rest = positions p (i + 1) (text.drop (i + 1 - position)) := by
  induction text generalizing position with
  | nil => simp [positions] at h
  | cons b text ih =>
    rw [positions] at h
    split at h
    next hb =>
      obtain ⟨rfl, rfl⟩ := List.cons.inj h
      simp [hb]
    next hb =>
      obtain ⟨hle, hp, hrest⟩ := ih h
      obtain ⟨d, rfl⟩ := Nat.exists_eq_add_of_le hle
      have h₁ : position + 1 + d - position = d + 1 := by omega
      have h₂ : position + 1 + d + 1 - position = d + 2 := by omega
      refine ⟨by omega, ?_, ?_⟩
      · rw [h₁, List.drop_succ_cons]
        simpa using hp
      · rw [h₂, List.drop_succ_cons, hrest]
        congr 2
        omega

private theorem positions_behind {p : Bytes → Bool} {k start i : Nat} {text : Bytes}
    {rest : List Nat} (hapart : ∀ u, p u = true → ∀ j, 0 < j → j < k → p (u.drop j) = false)
    (hk : 0 < k) (h : positions p start (text.drop start) = i :: rest) :
    rest = positions p (i + k) (text.drop (i + k)) := by
  obtain ⟨hle, hp, hrest⟩ := positions_cons h
  have hi : start + (i - start) = i := by omega
  have hi' : start + (i + 1 - start) = i + 1 := by omega
  rw [List.drop_drop, hi] at hp
  rw [List.drop_drop, hi'] at hrest
  -- No other occurrence overlaps the first, so going on behind it passes none over.
  have hskip : ∀ j, j < k - 1 → p ((text.drop (i + 1)).drop j) = false := by
    intro j hj
    have := hapart _ hp (j + 1) (Nat.zero_lt_succ j) (by omega)
    rw [List.drop_drop] at this ⊢
    rwa [show i + 1 + j = i + (j + 1) by omega]
  rw [hrest, positions_skip hskip, List.drop_drop, show i + 1 + (k - 1) = i + k by omega]

private theorem firstHit?_eq_head? {literal text : Bytes} {position : Nat} (hl : literal ≠ []) :
    Bytes.firstHit? literal position text =
      (positions (Bytes.beginsWith literal) position text).head? := by
  induction text generalizing position with
  | nil => simp [Bytes.firstHit?, positions, hl]
  | cons b text ih =>
    simp only [Bytes.firstHit?, positions]
    split
    · rfl
    · exact ih

private theorem search?_eq_head? {literal text : Bytes} {start : Nat} (hl : literal ≠ []) :
    Bytes.search? text literal start =
      (positions (Bytes.beginsWith literal) start (text.drop start)).head? := by
  rw [Bytes.search?_eq_firstHit?]
  split
  · exact firstHit?_eq_head? hl
  next h => rw [List.drop_of_length_le (by omega)]; rfl

private theorem firstStart?_eq_head? {name text : Bytes} {position : Nat} :
    firstStart? name position text = (positions (startsTag name) position text).head? := by
  induction text generalizing position with
  | nil => rfl
  | cons b text ih =>
    simp only [firstStart?, positions]
    split
    · rfl
    · exact ih

/-! ### Pairing the positions -/

/-- The first of the closing positions in front of which no opening position is left to pair with
it; both lists ascend. -/
private def paired? : (opens closes : List Nat) → Option Nat
  | _, [] => none
  | [], c :: _ => some c
  | o :: opens, c :: closes => if o < c then paired? opens closes else some c

private abbrev opensFrom (name markup : Bytes) (start : Nat) : List Nat :=
  positions (startsTag name) start (markup.drop start)

private abbrev closesFrom (name markup : Bytes) (start : Nat) : List Nat :=
  positions (Bytes.beginsWith (endTag name)) start (markup.drop start)

private theorem startsTag_apart {name u : Bytes} (hn : Ascii.less ∉ name)
    (h : startsTag name u = true) (j : Nat) (hj : 0 < j) (hlt : j < (openLiteral name).length) :
    startsTag name (u.drop j) = false := by
  simp only [startsTag, Bool.and_eq_true] at h
  simp only [startsTag, openLiteral, Bool.and_eq_false_iff]
  exact .inl (Bytes.not_beginsWith_drop hn h.1 hj (by simpa [openLiteral] using hlt))

private theorem endTag_apart {name u : Bytes} (hn : Ascii.less ∉ name)
    (h : Bytes.beginsWith (endTag name) u = true) (j : Nat) (hj : 0 < j)
    (hlt : j < (endTag name).length) : Bytes.beginsWith (endTag name) (u.drop j) = false := by
  refine Bytes.not_beginsWith_drop ?_ h hj (by simpa [endTag] using hlt)
  simp only [List.mem_cons, List.mem_append, List.not_mem_nil, or_false, not_or]
  exact ⟨by decide, hn, by decide⟩

private theorem closingFrom?_eq_paired? {name markup : Bytes} (hn : Ascii.less ∉ name)
    (openFrom closeFrom : Nat) :
    closingFrom? name markup openFrom closeFrom =
      paired? (opensFrom name markup openFrom) (closesFrom name markup closeFrom) := by
  fun_induction closingFrom? name markup openFrom closeFrom with
  | case1 openFrom closeFrom hclose =>
    rw [search?_eq_head? (endTag_ne_nil name), List.head?_eq_none_iff] at hclose
    rw [closesFrom, hclose]
    cases opensFrom name markup openFrom <;> rfl
  | case2 openFrom closeFrom closeAt hclose hopen =>
    rw [search?_eq_head? (endTag_ne_nil name), List.head?_eq_some_iff] at hclose
    rw [firstStart?_eq_head?, List.head?_eq_none_iff] at hopen
    obtain ⟨closes, hcloses⟩ := hclose
    rw [closesFrom, hcloses, opensFrom, hopen, paired?]
  | case3 openFrom closeFrom closeAt hclose openAt hopen hlt ih =>
    rw [search?_eq_head? (endTag_ne_nil name), List.head?_eq_some_iff] at hclose
    rw [firstStart?_eq_head?, List.head?_eq_some_iff] at hopen
    obtain ⟨closes, hcloses⟩ := hclose
    obtain ⟨opens, hopens⟩ := hopen
    have hc := positions_behind (fun u hu j ↦ endTag_apart hn hu j) (by simp [endTag]) hcloses
    have ho := positions_behind (fun u hu j ↦ startsTag_apart hn hu j) (by simp [openLiteral])
      hopens
    rw [ih, opensFrom, opensFrom, closesFrom, closesFrom, hcloses, hopens, paired?, if_pos hlt, hc,
      ho]
  | case4 openFrom closeFrom closeAt hclose openAt hopen hlt =>
    rw [search?_eq_head? (endTag_ne_nil name), List.head?_eq_some_iff] at hclose
    rw [firstStart?_eq_head?, List.head?_eq_some_iff] at hopen
    obtain ⟨closes, hcloses⟩ := hclose
    obtain ⟨opens, hopens⟩ := hopen
    rw [closesFrom, hcloses, opensFrom, hopens, paired?, if_neg hlt]

/-! ### Counting the depth -/

private theorem not_endTag_of_startsTag {name text : Bytes} (hne : name ≠ [])
    (hn : Ascii.slash ∉ name) (h : startsTag name text = true) :
    Bytes.beginsWith (endTag name) text = false := by
  simp only [startsTag, Bool.and_eq_true] at h
  refine Bool.eq_false_iff.mpr fun hend ↦ ?_
  obtain ⟨n, name, rfl⟩ := List.exists_cons_of_ne_nil hne
  match text, h.1, hend with
  | _ :: c :: _, hopen, hend =>
    simp only [openLiteral, endTag, Bytes.beginsWith, Bool.and_eq_true, beq_iff_eq] at hopen hend
    have hslash : Ascii.toLower n = Ascii.slash := by
      rw [hopen.2.1, ← hend.2.1]
      decide
    exact hn (by simp [(Ascii.toLower_eq_iff rfl).mp hslash])

private theorem depthEnd?_eq_paired? {name : Bytes} (hne : name ≠ []) (hn : Ascii.slash ∉ name)
    (text : Bytes) (position : Nat) {waiting : List Nat} (hw : ∀ o ∈ waiting, o < position) :
    depthEnd? name (waiting.length + 1) position text =
      (paired? (waiting ++ positions (startsTag name) position text)
        (positions (Bytes.beginsWith (endTag name)) position text)).map
          (· + (endTag name).length) := by
  -- The depth is one more than the number of start tags that wait for their partner; all of them
  -- lie before the text that is still to be read.
  induction text generalizing position waiting with
  | nil => cases waiting <;> rfl
  | cons b text ih =>
    rw [depthEnd?, positions, positions]
    split
    next hopen =>
      -- The new start tag waits behind those that wait already.
      rw [if_neg (by simp [not_endTag_of_startsTag hne hn hopen])]
      have hw' : ∀ o ∈ waiting ++ [position], o < position + 1 := by
        intro o ho
        rcases List.mem_append.mp ho with ho | ho
        · exact Nat.lt_succ_of_lt (hw o ho)
        · exact Nat.lt_succ_of_le (Nat.le_of_eq (List.mem_singleton.mp ho))
      have := ih _ hw'
      rwa [List.length_append, List.append_assoc] at this
    next =>
      have hlater : ∀ o ∈ waiting, o < position + 1 := fun o ho ↦ Nat.lt_succ_of_lt (hw o ho)
      split
      next hclose =>
        cases waiting with
        | nil =>
          -- Nothing waits, and what comes later comes too late.
          have hnone : paired? (positions (startsTag name) (position + 1) text)
              (position :: positions (Bytes.beginsWith (endTag name)) (position + 1) text) =
                some position := by
            cases hopens : positions (startsTag name) (position + 1) text with
            | nil => rfl
            | cons o opens =>
              have : position + 1 ≤ o := positions_bounds (hopens ▸ List.mem_cons_self)
              rw [paired?, if_neg (by omega)]
          simp [hnone]
        | cons o waiting =>
          have hlt : o < position := hw o List.mem_cons_self
          rw [if_neg (by simp), List.cons_append, paired?, if_pos hlt]
          exact ih _ fun o ho ↦ hlater o (List.mem_cons_of_mem _ ho)
      next => exact ih _ hlater

/-- The two cursors find the end tag at which the depth becomes 0. -/
theorem endTagPosition?_eq_depthEnd? {name markup : Bytes} (hne : name ≠ [])
    (hname : name.all Tag.isNameByte = true) :
    (endTagPosition? name markup).map (· + (endTag name).length) =
      depthEnd? name 1 (1 + name.length) (markup.drop (1 + name.length)) := by
  have hless : Ascii.less ∉ name := fun h ↦ absurd (List.all_eq_true.mp hname _ h) (by decide)
  have hslash : Ascii.slash ∉ name := fun h ↦ absurd (List.all_eq_true.mp hname _ h) (by decide)
  have hlen : (openLiteral name).length = 1 + name.length := by
    rw [openLiteral, List.length_cons, Nat.add_comm]
  have hnone : ∀ o ∈ ([] : List Nat), o < 1 + name.length := by simp
  have hdepth := depthEnd?_eq_paired? hne hslash (markup.drop (1 + name.length)) _ hnone
  rw [endTagPosition?, closingFrom?_eq_paired? hless, hlen]
  exact hdepth.symm

private theorem depthEnd?_shift (name text : Bytes) (depth position offset : Nat) :
    depthEnd? name depth (offset + position) text =
      (depthEnd? name depth position text).map (offset + ·) := by
  induction text generalizing depth position with
  | nil => rfl
  | cons b text ih =>
    simp only [depthEnd?]
    split
    · exact ih _ (position + 1)
    · split
      · split
        · simp [Nat.add_assoc]
        · exact ih _ (position + 1)
      · exact ih _ (position + 1)

/-- The scan ends behind an end tag of the name. -/
theorem depthEnd?_eq_some {name text : Bytes} {depth position i : Nat}
    (h : depthEnd? name depth position text = some i) :
    ∃ lead last rest, text = lead ++ (last ++ rest) ∧ Bytes.agree last (endTag name) = true ∧
      i = position + (lead ++ last).length := by
  induction text generalizing depth position with
  | nil => simp [depthEnd?] at h
  | cons b text ih =>
    have hlater : ∀ d, depthEnd? name d (position + 1) text = some i →
        ∃ lead last rest, b :: text = lead ++ (last ++ rest) ∧
          Bytes.agree last (endTag name) = true ∧ i = position + (lead ++ last).length := by
      intro d hd
      obtain ⟨lead, last, rest, rfl, hlast, rfl⟩ := ih hd
      refine ⟨b :: lead, last, rest, rfl, hlast, ?_⟩
      rw [List.cons_append, List.length_cons]
      omega
    rw [depthEnd?] at h
    split at h
    · exact hlater _ h
    · split at h
      next hclose =>
        split at h
        · obtain rfl := Option.some.inj h
          obtain ⟨last, rest, hsplit, hlast⟩ := Bytes.beginsWith_iff_exists.mp hclose
          have hlen := congrArg List.length hlast
          rw [Bytes.length_lower, Bytes.length_lower] at hlen
          exact ⟨[], last, rest, hsplit, Bytes.agree_iff.mpr hlast, by rw [List.nil_append, hlen]⟩
        · exact hlater _ h
      · exact hlater _ h

/-- An end tag ends with its only `>`. -/
theorem exists_of_agree_endTag {name last : Bytes} (hname : Ascii.greater ∉ name)
    (h : last.agree (endTag name) = true) :
    ∃ front, last = front ++ [Ascii.greater] ∧ Ascii.greater ∉ front := by
  have hlower := Bytes.agree_iff.mp h
  rw [show endTag name = (Ascii.less :: Ascii.slash :: name) ++ [Ascii.greater] from rfl,
    Bytes.lower_append] at hlower
  obtain ⟨front, close, rfl, hfront, hclose⟩ := List.map_eq_append_iff.mp hlower
  obtain ⟨c, rfl, hc⟩ := List.map_eq_singleton_iff.mp hclose
  obtain rfl : c = Ascii.greater := (Ascii.toLower_eq_iff rfl).mp hc
  refine ⟨front, rfl, fun hmem ↦ ?_⟩
  have hmem : Ascii.toLower Ascii.greater ∈ front.map Ascii.toLower := List.mem_map_of_mem hmem
  rw [hfront] at hmem
  obtain ⟨b, hb, heq⟩ := List.mem_map.mp hmem
  obtain rfl : b = Ascii.greater := (Ascii.toLower_eq_iff rfl).mp heq
  simp only [List.mem_cons, hname, or_false] at hb
  exact absurd hb (by decide)

/-- The number of bytes of an element that may have content, by its depth. -/
theorem extent_eq_depthEnd? {markup : Bytes} {tag : StartTag}
    (h : StartTag.ofMarkup? markup = some tag) (hv : Tag.isVoid tag.name = false) :
    extent markup tag.text =
      (depthEnd? tag.name 1 (1 + tag.name.length) (markup.drop (1 + tag.name.length))).getD
        tag.length := by
  have hproper := StartTag.isProper_of_ofMarkup? h
  rw [← endTagPosition?_eq_depthEnd? hproper.name_ne_nil hproper.name_bytes, extent,
    StartTag.ofMarkup?_text h]
  simp only [hv, Bool.false_eq_true, if_false]
  cases endTagPosition? tag.name markup <;> rfl

/-- The number of bytes of an element without content. -/
theorem extent_of_isVoid {markup : Bytes} {tag : StartTag}
    (h : StartTag.ofMarkup? markup = some tag) (hv : Tag.isVoid tag.name = true) :
    extent markup tag.text = tag.length := by
  rw [extent, StartTag.ofMarkup?_text h]
  simp only [hv, if_true]
  rfl

/-- An element is its start tag alone, or it consists of its start tag, its content and an end tag
of its name. -/
theorem extent_cases {markup : Bytes} {tag : StartTag}
    (h : StartTag.ofMarkup? markup = some tag) :
    extent markup tag.text = tag.length ∨
      ∃ content last rest, markup = tag.text ++ content ++ last ++ rest ∧
        Bytes.agree last (endTag tag.name) = true ∧
          extent markup tag.text = (tag.text ++ content ++ last).length := by
  have hproper := StartTag.isProper_of_ofMarkup? h
  cases hv : Tag.isVoid tag.name with
  | true => exact .inl (extent_of_isVoid h hv)
  | false =>
    have hextent := extent_eq_depthEnd? h hv
    cases hd : depthEnd? tag.name 1 (1 + tag.name.length)
        (markup.drop (1 + tag.name.length)) with
    | none => exact .inl (by rw [hextent, hd, Option.getD_none])
    | some i =>
      rw [hd, Option.getD_some] at hextent
      obtain ⟨behind, rfl⟩ := StartTag.text_prefix_of_ofMarkup? h
      obtain ⟨lead, last, rest, hsplit, hlast, rfl⟩ := depthEnd?_eq_some hd
      obtain ⟨front, hfront, hgreater⟩ :=
        exists_of_agree_endTag (hproper.not_mem_name (by decide)) hlast
      have hattributes : lead ++ (last ++ rest) = tag.attributes ++ Ascii.greater :: behind := by
        rw [← hsplit]
        simp [StartTag.text, Nat.add_comm 1]
      -- The scan passes the `>` of the start tag on its way, or the end tag found is the end of the
      -- start tag.
      rcases Bytes.append_eq_append_cons hattributes with
        ⟨content, rfl, rfl⟩ | ⟨inner, hinner, hlead⟩
      · refine .inr ⟨content, last, rest, by simp, hlast, ?_⟩
        rw [hextent]
        simp only [StartTag.text, List.length_append, List.length_cons, List.length_nil]
        omega
      · have hless : Ascii.greater ∉ inner := fun hmem ↦
          hproper.greater_not_mem (hlead ▸ List.mem_append_right _ hmem)
        rw [hfront, List.append_assoc, List.singleton_append] at hinner
        have hsame : front = inner := by
          rw [← (Bytes.takeWhile_ne hgreater rest).1, hinner, (Bytes.takeWhile_ne hless behind).1]
        refine .inl ?_
        rw [hextent, StartTag.length_eq, hlead, hfront, hsame]
        simp only [List.length_append, List.length_cons, List.length_nil]
        omega

/-- An element ends with a `>`, which is that of its start tag or a later one. -/
theorem exists_extent_eq {markup : Bytes} {tag : StartTag}
    (h : StartTag.ofMarkup? markup = some tag) :
    ∃ lead rest, markup = lead ++ Ascii.greater :: rest ∧ extent markup tag.text = lead.length + 1 ∧
      tag.length ≤ lead.length + 1 := by
  have hproper := StartTag.isProper_of_ofMarkup? h
  have htext : tag.text = (Ascii.less :: (tag.name ++ tag.attributes)) ++ [Ascii.greater] := rfl
  rcases extent_cases h with he | ⟨content, last, rest, hsplit, hlast, he⟩
  · obtain ⟨behind, rfl⟩ := StartTag.text_prefix_of_ofMarkup? h
    have hlen : tag.length = (Ascii.less :: (tag.name ++ tag.attributes)).length + 1 := by
      rw [StartTag.length, htext, List.length_append, List.length_singleton]
    exact ⟨Ascii.less :: (tag.name ++ tag.attributes), behind, by simp [htext], he.trans hlen,
      Nat.le_of_eq hlen⟩
  · obtain ⟨front, rfl, -⟩ := exists_of_agree_endTag (hproper.not_mem_name (by decide)) hlast
    refine ⟨tag.text ++ content ++ front, rest, by simp [hsplit], ?_, ?_⟩
    · rw [he]
      simp only [List.length_append, List.length_singleton]
      omega
    · rw [StartTag.length, List.length_append, List.length_append]
      omega

/-- An element reaches at least over its start tag and never beyond the text. -/
theorem extent_bounds {markup : Bytes} {tag : StartTag} (h : StartTag.ofMarkup? markup = some tag) :
    tag.length ≤ extent markup tag.text ∧ extent markup tag.text ≤ markup.length := by
  obtain ⟨lead, rest, rfl, he, hle⟩ := exists_extent_eq h
  rw [he, List.length_append, List.length_cons]
  omega

/-- On every text the end of an element that may have content is the end that the depth counter
finds, and it lies between the end of the start tag and the end of the text. -/
theorem endOffset_eq_endByDepth {text : Bytes} {offset : Nat} {tag : StartTag}
    (h : StartTag.ofMarkup? (text.drop offset) = some tag) (hv : Tag.isVoid tag.name = false) :
    endOffset text offset tag.text = endByDepth text offset tag ∧
      offset + tag.length ≤ endOffset text offset tag.text ∧
        endOffset text offset tag.text ≤ text.length := by
  have hbounds := extent_bounds h
  have hpos := tag.length_pos
  rw [List.length_drop] at hbounds
  refine ⟨?_, Nat.add_le_add_left hbounds.1 _, by rw [endOffset]; omega⟩
  rw [endOffset, extent_eq_depthEnd? h hv, endByDepth, List.drop_drop, Nat.add_assoc,
    depthEnd?_shift _ _ _ (1 + tag.name.length) offset]
  cases depthEnd? tag.name 1 (1 + tag.name.length) (text.drop (offset + (1 + tag.name.length))) <;>
    rfl

/-- A start tag of the same name inside the attribute list, one of a longer name and end tags in
either letter case. -/
theorem endOffset_eq_endByDepth_nested :
    let text := Bytes.ofString "x<a t=<a ><ab></A></a>y"
    let tag : StartTag := ⟨Bytes.ofString "a", Bytes.ofString " t=<a "⟩
    (StartTag.ofMarkup? (text.drop 1) = some tag ∧ Tag.isVoid tag.name = false) ∧
      endByDepth text 1 tag = 22 ∧
        endOffset text 1 tag.text = endByDepth text 1 tag ∧
          1 + tag.length ≤ endOffset text 1 tag.text ∧ endOffset text 1 tag.text ≤ text.length :=
  ⟨⟨by decide, by decide⟩, by decide, endOffset_eq_endByDepth (by decide) (by decide)⟩

end MarkupSelect.Element
