import MarkupSelect.Selector.Cache

/-!
# What is relied on of a cache

A cache is known by what it promises. A look-up finds what is kept for a text and makes it the most
recently used; what is put in becomes the most recently used, and the least recently used gives way
if there is no room. What is proved of requests rests on these promises alone, whatever keeps the
entries; the cache that is a list of its entries gives them.
-/

namespace MarkupSelect.Selector

namespace Store

variable {γ : Type}

/-- A store of limited capacity keeps what was used most recently. What is kept for a text is found
and becomes the most recently used; what is not kept is not found, and the entries stay as they are.
A selector that is put in takes the place of the one kept for its text; for a new text it is added
if there is room, and otherwise the least recently used entry gives way to it. -/
structure IsLeastRecent (S : Store γ) : Prop where
  entries_empty : S.entries S.empty = []
  get_of_not_mem {c : γ} {text : String} : text ∉ S.texts c →
    (S.get c text).1 = none ∧ S.entries (S.get c text).2 = S.entries c
  get_of_find? {c : γ} {text : String} {e : String × Selector} :
    (S.entries c).find? (·.1 == text) = some e →
      (S.get c text).1 = some e.2 ∧
        S.entries (S.get c text).2 = e :: (S.entries c).filter (·.1 != text)
  put_of_mem {c : γ} {text : String} (selector : Selector) :
    text ∈ S.texts c → (S.entries c).length ≤ Cache.capacity →
      S.entries (S.put c text selector) = (text, selector) :: (S.entries c).filter (·.1 != text)
  put_of_lt {c : γ} {text : String} (selector : Selector) :
    text ∉ S.texts c → (S.entries c).length < Cache.capacity →
      S.entries (S.put c text selector) = (text, selector) :: S.entries c
  put_of_full {c : γ} {text : String} (selector : Selector) :
    text ∉ S.texts c → (S.entries c).length = Cache.capacity →
      S.entries (S.put c text selector) = (text, selector) :: (S.entries c).dropLast

/-! ### Look-ups and stores -/

variable {S : Store γ}

/-- Entries for other texts are all entries if none is for the text. -/
theorem filter_of_not_mem {entries : List (String × Selector)} {text : String}
    (h : text ∉ entries.map (·.1)) : entries.filter (·.1 != text) = entries := by
  rw [List.filter_eq_self]
  intro e he
  rw [bne_iff_ne]
  exact fun htext ↦ h (htext ▸ List.mem_map_of_mem he)

/-- Entries for other texts are fewer than all entries if one is for the text. -/
theorem length_filter_lt {entries : List (String × Selector)} {text : String}
    (h : text ∈ entries.map (·.1)) :
    (entries.filter (·.1 != text)).length < entries.length := by
  obtain ⟨e, he, rfl⟩ := List.mem_map.mp h
  exact List.length_filter_lt_length_iff_exists.mpr ⟨e, he, by simp⟩

/-- All that a look-up can come to. -/
theorem IsLeastRecent.get_cases (hS : S.IsLeastRecent) (c : γ) (text : String) :
    (text ∉ S.texts c ∧ (S.get c text).1 = none ∧ S.entries (S.get c text).2 = S.entries c) ∨
      ∃ selector, (text, selector) ∈ S.entries c ∧ (S.get c text).1 = some selector ∧
        S.entries (S.get c text).2 =
          (text, selector) :: (S.entries c).filter (·.1 != text) := by
  cases hfind : (S.entries c).find? (·.1 == text) with
  | none =>
    have hnot : text ∉ S.texts c := by
      intro hmem
      obtain ⟨e, he, htext⟩ := List.mem_map.mp hmem
      have := List.find?_eq_none.mp hfind e he
      rw [htext, beq_self_eq_true] at this
      contradiction
    exact .inl ⟨hnot, hS.get_of_not_mem hnot⟩
  | some e =>
    obtain ⟨found, selector⟩ := e
    have htext := List.find?_some hfind
    obtain rfl : found = text := beq_iff_eq.mp htext
    exact .inr ⟨selector, List.mem_of_find?_eq_some hfind, hS.get_of_find? hfind⟩

/-- After a store its text comes first, the other entries follow, and as many of them stay as there
is room for. -/
theorem IsLeastRecent.entries_put (hS : S.IsLeastRecent) {c : γ}
    (hc : (S.entries c).length ≤ Cache.capacity) (text : String) (selector : Selector) :
    S.entries (S.put c text selector) =
      ((text, selector) :: (S.entries c).filter (·.1 != text)).take Cache.capacity := by
  by_cases hmem : text ∈ S.texts c
  · have hless := length_filter_lt hmem
    rw [hS.put_of_mem selector hmem hc, List.take_of_length_le]
    rw [List.length_cons]
    omega
  · rw [filter_of_not_mem hmem]
    rcases Nat.lt_or_eq_of_le hc with hroom | hfull
    · rw [hS.put_of_lt selector hmem hroom, List.take_of_length_le]
      rw [List.length_cons]
      omega
    · rw [hS.put_of_full selector hmem hfull, List.dropLast_eq_take, hfull]
      rfl

/-! ### Sound stores -/

/-- What a store keeps for a text is what the text compiles to, and it keeps no more than it may. -/
structure IsSound (S : Store γ) (c : γ) : Prop where
  compiles : ∀ e ∈ S.entries c, Selector.compile e.1 = .ok e.2
  bounded : (S.entries c).length ≤ Cache.capacity

/-- A store that keeps nothing yet is sound. -/
theorem isSound_empty (hS : S.IsLeastRecent) : S.IsSound S.empty := by
  constructor
  · intro e he
    rw [hS.entries_empty] at he
    contradiction
  · rw [hS.entries_empty]
    exact Nat.zero_le _

/-- A text for which something is kept compiles. -/
theorem IsSound.not_mem_texts {c : γ} (hc : S.IsSound c) {text : String} {error : SelectorError}
    (h : Selector.compile text = .error error) : text ∉ S.texts c := by
  intro hmem
  obtain ⟨e, he, rfl⟩ := List.mem_map.mp hmem
  rw [hc.compiles e he] at h
  contradiction

/-- What a look-up finds is what the text compiles to. -/
theorem IsSound.compile_of_get (hS : S.IsLeastRecent) {c : γ} (hc : S.IsSound c) {text : String}
    {selector : Selector} (h : (S.get c text).1 = some selector) :
    Selector.compile text = .ok selector := by
  rcases hS.get_cases c text with ⟨-, hnone, -⟩ | ⟨found, hmem, hsome, -⟩
  · rw [hnone] at h
    contradiction
  · rw [hsome] at h
    rw [← Option.some.inj h]
    exact hc.compiles (text, found) hmem

/-- A look-up keeps a store sound. -/
theorem IsSound.get (hS : S.IsLeastRecent) {c : γ} (hc : S.IsSound c) (text : String) :
    S.IsSound (S.get c text).2 := by
  rcases hS.get_cases c text with ⟨-, -, hsame⟩ | ⟨selector, hmem, -, hfirst⟩
  · constructor
    · rw [hsame]
      exact hc.compiles
    · rw [hsame]
      exact hc.bounded
  · constructor
    · intro e he
      rw [hfirst] at he
      rcases List.mem_cons.mp he with rfl | he
      · exact hc.compiles (text, selector) hmem
      · exact hc.compiles e (List.mem_filter.mp he).1
    · have hless := length_filter_lt (List.mem_map_of_mem (f := (·.1)) hmem)
      rw [hfirst, List.length_cons]
      exact Nat.le_trans hless hc.bounded

/-- A store of what a text compiles to keeps a store sound. -/
theorem IsSound.put (hS : S.IsLeastRecent) {c : γ} (hc : S.IsSound c) {text : String}
    {selector : Selector} (h : Selector.compile text = .ok selector) :
    S.IsSound (S.put c text selector) := by
  have hput := hS.entries_put hc.bounded text selector
  constructor
  · intro e he
    rw [hput] at he
    rcases List.mem_cons.mp (List.mem_of_mem_take he) with rfl | he
    · exact h
    · exact hc.compiles e (List.mem_filter.mp he).1
  · rw [hput]
    exact List.length_take_le _ _

end Store

/-! ### The list of entries -/

namespace Cache

/-- A request to the list of entries is one to its store. -/
theorem compile_asStore (c : Cache) (text : String) : asStore.compile c text = c.compile text := by
  rw [Store.compile, compile, asStore]
  dsimp only
  cases c.lookup? text <;> rfl

/-- The list of entries keeps what was used most recently. -/
theorem isLeastRecent_asStore : asStore.IsLeastRecent where
  entries_empty := rfl
  get_of_not_mem {c text} h := by
    have hfind : c.entries.find? (·.1 == text) = none := by
      rw [List.find?_eq_none]
      intro e he htext
      exact h (beq_iff_eq.mp htext ▸ List.mem_map_of_mem (f := (·.1)) he)
    simp only [asStore, lookup?, hfind, Option.map_none, and_self]
  get_of_find? {c text e} h := by
    have hfind : c.entries.find? (·.1 == text) = some e := h
    simp only [asStore, lookup?, hfind, Option.map_some, and_self]
  put_of_mem {c text} selector h hc := by
    have hless := Store.length_filter_lt h
    refine List.take_of_length_le ?_
    rw [List.length_cons]
    exact Nat.le_trans hless hc
  put_of_lt {c text} selector h hc := by
    have hall : c.entries.filter (·.1 != text) = c.entries := Store.filter_of_not_mem h
    change ((text, selector) :: c.entries.filter (·.1 != text)).take capacity = _
    rw [hall]
    exact List.take_of_length_le hc
  put_of_full {c text} selector h hc := by
    have hall : c.entries.filter (·.1 != text) = c.entries := Store.filter_of_not_mem h
    have hlen : c.entries.length = capacity := hc
    change ((text, selector) :: c.entries.filter (·.1 != text)).take capacity =
      (text, selector) :: c.entries.dropLast
    rw [hall, List.dropLast_eq_take, hlen]
    rfl

end Cache

end MarkupSelect.Selector
