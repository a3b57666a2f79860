import MarkupSelect.Proofs.Extract.Keys

/-!
# Independent fields

A name written with brackets leads through its keys. Where no name leads through another one, and
none through numbers, each field has a place of its own: whatever their order, the fields of a form
are found under their keys with their values, and there is nothing else in the form.
-/

namespace MarkupSelect.FormValue

variable {entries : Entries} {key last : Bytes} {keys : List Bytes} {text : Option Bytes}
  {v w : FormValue}

/-! ### Names -/

/-- A key in brackets. -/
def bracket (key : Bytes) : Bytes := Ascii.openBracket :: (key ++ [Ascii.closeBracket])

/-- The name that leads through some keys: the first of them, and the others in brackets. -/
def pathName : List Bytes → Bytes
  | [] => []
  | key :: keys => key ++ keys.flatMap bracket

/-- A key that is a word: there is something in it, but no bracket, and it is no number. -/
structure IsWord (key : Bytes) : Prop where
  ne_nil : key ≠ []
  openBracket_not_mem : Ascii.openBracket ∉ key
  closeBracket_not_mem : Ascii.closeBracket ∉ key
  isIndex_eq_false : isIndex key = false

private theorem getLast?_ne (h : IsWord key) : key.getLast? ≠ some Ascii.closeBracket := by
  intro hlast
  exact h.closeBracket_not_mem (List.mem_of_getLast? hlast)

private theorem trim_word (lead : Bytes) (h : IsWord last) :
    ((lead ++ last).reverse.dropWhile (· == Ascii.closeBracket)).reverse = lead ++ last := by
  have hlast : (lead ++ last).getLast? ≠ some Ascii.closeBracket := by
    rw [List.getLast?_append_of_ne_nil _ h.ne_nil]
    exact getLast?_ne h
  rw [List.getLast?_eq_head?_reverse] at hlast
  have hkeep : (lead ++ last).reverse.dropWhile (· == Ascii.closeBracket) =
      (lead ++ last).reverse := by
    cases hrev : (lead ++ last).reverse with
    | nil => rfl
    | cons b rest =>
      rw [hrev, List.head?_cons] at hlast
      rw [List.dropWhile_cons_of_neg]
      intro hb
      exact hlast (congrArg some (beq_iff_eq.mp hb))
  rw [hkeep, List.reverse_reverse]

private theorem splitOn_pathName (hkey : Ascii.openBracket ∉ key)
    (hkeys : ∀ key ∈ keys, Ascii.openBracket ∉ key) :
    (pathName (key :: keys)).splitOn Ascii.openBracket =
      key :: keys.map (· ++ [Ascii.closeBracket]) := by
  induction keys generalizing key with
  | nil =>
    rw [pathName, List.flatMap_nil, List.append_nil]
    exact List.splitOn_eq_singleton hkey
  | cons next keys ih =>
    rw [List.forall_mem_cons] at hkeys
    have hnext : Ascii.openBracket ∉ next ++ [Ascii.closeBracket] := by
      rw [List.mem_append, not_or]
      exact ⟨hkeys.1, by decide⟩
    have hrest := ih hnext hkeys.2
    rw [pathName] at hrest
    rw [pathName, List.flatMap_cons, bracket, List.cons_append,
      List.splitOn_append_cons_self_of_not_mem hkey, hrest, List.map_cons]

private theorem strip_closed (key : Bytes) :
    (if (key ++ [Ascii.closeBracket]).getLast? = some Ascii.closeBracket then
      (key ++ [Ascii.closeBracket]).dropLast else key ++ [Ascii.closeBracket]) = key := by
  rw [List.getLast?_concat, if_pos rfl, List.dropLast_concat]

/-- A name leads through its keys. -/
theorem path_pathName (hne : keys ≠ []) (h : ∀ key ∈ keys, IsWord key) :
    path (pathName keys) = keys := by
  obtain ⟨key, keys, rfl⟩ := List.exists_cons_of_ne_nil hne
  have hkey : IsWord key := h key List.mem_cons_self
  rcases List.eq_nil_or_concat' keys with rfl | ⟨keys, last, rfl⟩
  · have htrim := trim_word [] hkey
    rw [List.nil_append] at htrim
    rw [path, pathName, List.flatMap_nil, List.append_nil]
    rw [htrim, List.splitOn_eq_singleton hkey.openBracket_not_mem, List.map_singleton,
      if_neg (getLast?_ne hkey)]
  · have hlast : IsWord last := h last (by simp)
    have hkeys : ∀ key ∈ keys, IsWord key := fun key hmem ↦ h key (by simp [hmem])
    -- Of the brackets at the end one alone is trimmed, since a word stands in them.
    have hname : pathName (key :: (keys ++ [last])) =
        pathName (key :: keys) ++ Ascii.openBracket :: last ++ [Ascii.closeBracket] := by
      simp [pathName, bracket]
    have htrim := trim_word (pathName (key :: keys) ++ [Ascii.openBracket]) hlast
    rw [List.append_assoc, List.singleton_append] at htrim
    rw [path, hname]
    rw [List.reverse_append, List.reverse_singleton, List.singleton_append,
      List.dropWhile_cons_of_pos (by simp), htrim, List.splitOn_append_cons_self,
      splitOn_pathName hkey.openBracket_not_mem fun key hmem ↦ (hkeys key hmem).openBracket_not_mem,
      List.splitOn_eq_singleton hlast.openBracket_not_mem, List.map_append, List.map_cons,
      List.map_singleton, if_neg (getLast?_ne hkey), if_neg (getLast?_ne hlast), List.map_map]
    have hstrip : ∀ keys : List Bytes, keys.map ((fun segment : Bytes ↦
        if segment.getLast? = some Ascii.closeBracket then segment.dropLast else segment) ∘
          (· ++ [Ascii.closeBracket])) = keys := by
      intro keys
      exact (List.map_congr_left fun key _ ↦ strip_closed key).trans (List.map_id keys)
    rw [hstrip, List.cons_append]

/-! ### Leaves -/

/-- A plain value lies in a value, under a path of keys. -/
inductive LeafAt : FormValue → List Bytes → Option Bytes → Prop
  | value (text : Option Bytes) : LeafAt (.value text) [] text
  | entry {entries : Entries} {key : Bytes} {keys : List Bytes} {v : FormValue}
      {text : Option Bytes} (hmem : (key, v) ∈ entries) (h : LeafAt v keys text) :
      LeafAt (.map entries) (key :: keys) text

/-- The value to which a path of keys leads, key by key. -/
def follow? (v : FormValue) : List Bytes → Option FormValue
  | [] => some v
  | key :: keys => (v.get? key).bind (follow? · keys)

@[simp] theorem leafAt_value_iff {text' : Option Bytes} :
    LeafAt (.value text) keys text' ↔ keys = [] ∧ text' = text := by
  constructor
  · intro h
    cases h
    exact ⟨rfl, rfl⟩
  · rintro ⟨rfl, rfl⟩
    exact .value text'

/-- A leaf of entries is one of the value of an entry. -/
theorem leafAt_map_iff : LeafAt (.map entries) keys text ↔
    ∃ e ∈ entries, ∃ keys', keys = e.1 :: keys' ∧ LeafAt e.2 keys' text := by
  constructor
  · intro h
    cases h with
    | entry hmem h => exact ⟨_, hmem, _, rfl, h⟩
  · rintro ⟨e, hmem, keys', rfl, h⟩
    exact .entry hmem h

/-- The leaves of entries in two lists are those of both. -/
theorem leafAt_append_iff {others : Entries} : LeafAt (.map (entries ++ others)) keys text ↔
    LeafAt (.map entries) keys text ∨ LeafAt (.map others) keys text := by
  simp only [leafAt_map_iff, List.mem_append, or_and_right, exists_or]

/-- The leaves of an entry in front of others are those under its key and those of the others. -/
theorem leafAt_cons_iff : LeafAt (.map ((key, v) :: entries)) keys text ↔
    (∃ keys', keys = key :: keys' ∧ LeafAt v keys' text) ∨ LeafAt (.map entries) keys text := by
  simp only [leafAt_map_iff, List.mem_cons, or_and_right, exists_or, exists_eq_left]

/-- Under a path of words a plain value lies at the end of the path alone. -/
theorem leafAt_nested_iff (h : ∀ key ∈ keys, IsWord key) {path : List Bytes}
    {text' : Option Bytes} :
    LeafAt (nested (.value text) keys) path text' ↔ path = keys ∧ text' = text := by
  induction keys generalizing path with
  | nil => rw [nested, leafAt_value_iff]
  | cons key keys ih =>
    rw [List.forall_mem_cons] at h
    have hkey : key.isEmpty = false := by simpa using h.1.ne_nil
    rw [nested, hkey, if_neg Bool.false_ne_true, leafAt_cons_iff]
    simp only [ih h.2, leafAt_map_iff, List.not_mem_nil, false_and, exists_false, or_false]
    constructor
    · rintro ⟨keys', rfl, rfl, rfl⟩
      exact ⟨rfl, rfl⟩
    · rintro ⟨rfl, rfl⟩
      exact ⟨keys, rfl, rfl, rfl⟩

/-! ### Entries that lead to leaves -/

/-- Entries of which each has a key of its own and leads to a leaf. -/
structure IsClear (entries : Entries) : Prop where
  nodup : (entries.map (·.1)).Nodup
  leads : ∀ e ∈ entries, ∃ keys text, LeafAt e.2 keys text

/-- Every leaf is found on its path. -/
theorem LeafAt.follow?_eq (h : LeafAt v keys text) (hclear : v.Everywhere IsClear) :
    follow? v keys = some (.value text) := by
  induction h with
  | value text => rfl
  | @entry entries key keys v text hmem h ih =>
    cases hclear with
    | map hentries hvalues =>
      obtain ⟨before, after, rfl⟩ := List.append_of_mem hmem
      have hnodup := hentries.nodup
      rw [List.map_append, List.map_cons, List.nodup_middle, List.nodup_cons, List.mem_append,
        not_or] at hnodup
      rw [follow?, get?_append_cons hnodup.1.1, Option.bind_some]
      exact ih (hvalues _ hmem)

private theorem everywhere_nested (keys : List Bytes) (h : ∀ key ∈ keys, IsWord key) :
    (nested (.value text) keys).Everywhere IsClear := by
  induction keys with
  | nil => exact .value text
  | cons key keys ih =>
    rw [List.forall_mem_cons] at h
    refine .map ⟨List.nodup_singleton _, ?_⟩ ?_
    · rw [List.forall_mem_singleton]
      exact ⟨keys, text, (leafAt_nested_iff h.2).mpr ⟨rfl, rfl⟩⟩
    · rw [List.forall_mem_singleton]
      exact ih h.2

/-! ### One more field -/

/-- A value that has all leaves of the one in whose place it is put adds those that it has besides,
under its key. -/
theorem leafAt_replace_iff {P : List Bytes → Option Bytes → Prop}
    (hget : get? (.map entries) key = some w)
    (hv : ∀ keys text, LeafAt v keys text ↔ LeafAt w keys text ∨ P keys text) :
    LeafAt (.map (replace key v entries)) keys text ↔
      LeafAt (.map entries) keys text ∨ ∃ keys', keys = key :: keys' ∧ P keys' text := by
  obtain ⟨before, after, rfl, hreplace⟩ := exists_split_of_get? hget
  rw [hreplace]
  simp only [leafAt_append_iff, leafAt_cons_iff, hv, and_or_left, exists_or]
  constructor
  · rintro (h | (h | h) | h)
    · exact .inl (.inl h)
    · exact .inl (.inr (.inl h))
    · exact .inr h
    · exact .inl (.inr (.inr h))
  · rintro ((h | h | h) | h)
    · exact .inl h
    · exact .inr (.inl (.inl h))
    · exact .inr (.inr h)
    · exact .inr (.inl (.inr h))

private theorem everywhere_replace (h : (FormValue.map entries).Everywhere IsClear)
    (hget : get? (.map entries) key = some w) (hv : v.Everywhere IsClear)
    (hleads : ∃ keys text, LeafAt v keys text) :
    (FormValue.map (replace key v entries)).Everywhere IsClear := by
  obtain ⟨before, after, rfl, hreplace⟩ := exists_split_of_get? hget
  rw [hreplace]
  cases h with
  | map hentries hvalues =>
    have hnodup := hentries.nodup
    have hall := hentries.leads
    rw [List.forall_mem_append, List.forall_mem_cons] at hvalues hall
    refine .map ⟨?_, ?_⟩ ?_
    · rw [List.map_append, List.map_cons] at hnodup ⊢
      exact hnodup
    · rw [List.forall_mem_append, List.forall_mem_cons]
      exact ⟨hall.1, hleads, hall.2.2⟩
    · rw [List.forall_mem_append, List.forall_mem_cons]
      exact ⟨hvalues.1, hv, hvalues.2.2⟩

private theorem everywhere_concat (h : (FormValue.map entries).Everywhere IsClear)
    (hget : get? (.map entries) key = none) (hv : v.Everywhere IsClear)
    (hleads : ∃ keys text, LeafAt v keys text) :
    (FormValue.map (entries ++ [(key, v)])).Everywhere IsClear := by
  cases h with
  | map hentries hvalues =>
    refine .map ⟨?_, ?_⟩ ?_
    · rw [List.map_append, List.map_singleton, ← List.concat_eq_append]
      exact .concat (get?_eq_none_iff.mp hget) hentries.nodup
    · rw [List.forall_mem_append, List.forall_mem_singleton]
      exact ⟨hentries.leads, hleads⟩
    · rw [List.forall_mem_append, List.forall_mem_singleton]
      exact ⟨hvalues, hv⟩

/-- Of two paths none leads through the other. -/
def Apart (path path' : List Bytes) : Prop := ¬ path <+: path' ∧ ¬ path' <+: path

/-- Entries that lead to the leaves of some others and to one more. -/
structure Gains (target : Entries) (path : List Bytes) (text : Option Bytes)
    (result : Entries) : Prop where
  clear : (FormValue.map result).Everywhere IsClear
  leaves : ∀ path' text', LeafAt (.map result) path' text' ↔
    LeafAt (.map target) path' text' ∨ path' = path ∧ text' = text

private theorem cons_eq_iff {path : List Bytes} {text' : Option Bytes} :
    (∃ keys', path = key :: keys' ∧ keys' = keys ∧ text' = text) ↔
      path = key :: keys ∧ text' = text := by
  constructor
  · rintro ⟨keys', rfl, rfl, rfl⟩
    exact ⟨rfl, rfl⟩
  · rintro ⟨rfl, rfl⟩
    exact ⟨keys, rfl, rfl, rfl⟩

private theorem gains_of_fresh {target : Entries} (hwords : ∀ word ∈ key :: keys, IsWord word)
    (htarget : (FormValue.map target).Everywhere IsClear) (hget : get? (.map target) key = none) :
    Gains target (key :: keys) text (mergeEntries target [(key, nested (.value text) keys)]) := by
  obtain ⟨hkey, hkeys⟩ := List.forall_mem_cons.mp hwords
  rw [mergeEntries_fresh hkey.isIndex_eq_false hget]
  refine ⟨everywhere_concat htarget hget (everywhere_nested _ hkeys)
    ⟨keys, text, (leafAt_nested_iff hkeys).mpr ⟨rfl, rfl⟩⟩, fun path text' ↦ ?_⟩
  rw [leafAt_append_iff, leafAt_cons_iff]
  simp only [leafAt_nested_iff hkeys, cons_eq_iff, leafAt_map_iff, List.not_mem_nil, false_and,
    exists_false, or_false]

/-- A field on whose path there is no leaf, and whose path leads through none, is one leaf more. -/
theorem gains_mergeEntries {target : Entries} (hwords : ∀ word ∈ key :: keys, IsWord word)
    (htarget : (FormValue.map target).Everywhere IsClear)
    (hapart : ∀ path text', LeafAt (.map target) path text' → Apart path (key :: keys)) :
    Gains target (key :: keys) text (mergeEntries target [(key, nested (.value text) keys)]) := by
  induction keys generalizing key target with
  | nil =>
    cases hget : get? (.map target) key with
    | none => exact gains_of_fresh hwords htarget hget
    | some w =>
      -- There would be a leaf behind the end of the path.
      obtain ⟨before, after, rfl, -⟩ := exists_split_of_get? hget
      cases htarget with
      | map hentries _ =>
        obtain ⟨path, text', hleaf⟩ := hentries.leads (key, w) List.mem_append_cons_self
        have hpath := hapart _ _ (.entry List.mem_append_cons_self hleaf)
        exact absurd ⟨path, rfl⟩ hpath.2
  | cons next keys ih =>
    obtain ⟨hkey, hrest⟩ := List.forall_mem_cons.mp hwords
    cases hget : get? (.map target) key with
    | none => exact gains_of_fresh hwords htarget hget
    | some w =>
      have hmem : (key, w) ∈ target := by
        obtain ⟨before, after, rfl, -⟩ := exists_split_of_get? hget
        exact List.mem_append_cons_self
      have hw : w.Everywhere IsClear := by
        cases htarget with
        | map _ hvalues => exact hvalues _ hmem
      have hinner : ∀ path text', LeafAt w path text' → Apart path (next :: keys) := by
        intro path text' hleaf
        obtain ⟨hfront, hback⟩ := hapart _ _ (.entry hmem hleaf)
        rw [List.cons_prefix_cons, not_and] at hfront hback
        exact ⟨hfront rfl, hback rfl⟩
      cases w with
      | value other =>
        -- There would be a leaf on the path.
        exact absurd List.nil_prefix (hinner [] other (.value other)).1
      | map entries =>
        have hgains := ih hrest hw hinner
        have hnext : next.isEmpty = false := by simpa using (hrest next List.mem_cons_self).ne_nil
        rw [mergeEntries_present hkey.isIndex_eq_false hget, nested, hnext,
          if_neg Bool.false_ne_true, toEntries, mergeValue]
        refine ⟨everywhere_replace htarget hget hgains.clear ?_, fun path text' ↦ ?_⟩
        · exact ⟨next :: keys, text, (hgains.leaves _ _).mpr (.inr ⟨rfl, rfl⟩)⟩
        · rw [leafAt_replace_iff hget hgains.leaves, cons_eq_iff]

/-! ### All fields -/

/-- The entries of fields, each given by its path and its plain value, merged in their order. -/
def ofFields (fields : List (List Bytes × Option Bytes)) : Entries :=
  fields.foldl (fun entries f ↦ mergeEntries entries (field (pathName f.1) (.value f.2))) []

/-- Fields whose names are words in brackets, and none of which is in the way of another. -/
structure AreIndependent (fields : List (List Bytes × Option Bytes)) : Prop where
  ne_nil : ∀ f ∈ fields, f.1 ≠ []
  words : ∀ f ∈ fields, ∀ key ∈ f.1, IsWord key
  apart : fields.Pairwise fun f g ↦ Apart f.1 g.1

/-- In another order fields are independent too. -/
theorem AreIndependent.perm {fields others : List (List Bytes × Option Bytes)}
    (h : AreIndependent fields) (hperm : others.Perm fields) : AreIndependent others := by
  refine ⟨fun f hf ↦ h.ne_nil f (hperm.subset hf), fun f hf ↦ h.words f (hperm.subset hf), ?_⟩
  exact (hperm.pairwise_iff fun {f g} ⟨hfg, hgf⟩ ↦ ⟨hgf, hfg⟩).mpr h.apart

private theorem field_pathName (hwords : ∀ word ∈ key :: keys, IsWord word) :
    field (pathName (key :: keys)) v = [(key, nested v keys)] := by
  have hkey : key.isEmpty = false := by simpa using (hwords key List.mem_cons_self).ne_nil
  rw [field, path_pathName (List.cons_ne_nil key keys) hwords, nested, hkey,
    if_neg Bool.false_ne_true, toEntries]

private theorem gains_ofFields {fields : List (List Bytes × Option Bytes)}
    (h : AreIndependent fields) :
    (FormValue.map (ofFields fields)).Everywhere IsClear ∧
      ∀ path text, LeafAt (.map (ofFields fields)) path text ↔ (path, text) ∈ fields := by
  induction fields using List.reverseRecOn with
  | nil =>
    refine ⟨.map ⟨List.nodup_nil, List.forall_mem_nil _⟩ (List.forall_mem_nil _), ?_⟩
    simp [ofFields, leafAt_map_iff]
  | append_singleton fields f ih =>
    have hall := h.apart
    rw [List.pairwise_append] at hall
    obtain ⟨hclear, hleaves⟩ := ih ⟨fun g hg ↦ h.ne_nil g (List.mem_append_left _ hg),
      fun g hg ↦ h.words g (List.mem_append_left _ hg), hall.1⟩
    have hf : f ∈ fields ++ [f] := List.mem_append_right _ (List.mem_singleton_self f)
    obtain ⟨path, text⟩ := f
    obtain ⟨key, keys, rfl⟩ := List.exists_cons_of_ne_nil (h.ne_nil _ hf)
    have hwords := h.words _ hf
    have hgains : Gains (ofFields fields) (key :: keys) text
        (mergeEntries (ofFields fields) [(key, nested (.value text) keys)]) := by
      apply gains_mergeEntries hwords hclear
      intro path text' hleaf
      exact hall.2.2 _ ((hleaves path text').mp hleaf) _ (List.mem_singleton_self _)
    have hfold : ofFields (fields ++ [(key :: keys, text)]) =
        mergeEntries (ofFields fields) [(key, nested (.value text) keys)] := by
      rw [ofFields, List.foldl_append, List.foldl_cons, List.foldl_nil, field_pathName hwords,
        ofFields]
    rw [hfold]
    refine ⟨hgains.clear, fun path text' ↦ ?_⟩
    rw [hgains.leaves, hleaves, List.mem_append, List.mem_singleton, Prod.mk.injEq]

/-- Independent fields, merged in any order, are each found on its path with its own value, and
every plain value in the entries is that of a field, on its path. -/
theorem leafAt_ofFields {fields order : List (List Bytes × Option Bytes)}
    (h : AreIndependent fields) (horder : order.Perm fields) :
    (∀ f ∈ fields, follow? (.map (ofFields order)) f.1 = some (.value f.2)) ∧
      ∀ path text, LeafAt (.map (ofFields order)) path text ↔ (path, text) ∈ fields := by
  obtain ⟨hclear, hleaves⟩ := gains_ofFields (h.perm horder)
  have hmem : ∀ path text, LeafAt (.map (ofFields order)) path text ↔ (path, text) ∈ fields := by
    intro path text
    rw [hleaves, horder.mem_iff]
  exact ⟨fun f hf ↦ ((hmem f.1 f.2).mpr hf).follow?_eq hclear, hmem⟩

/-- Two fields that share the beginning of their paths, one of them without a value, and a key that
has digits but is no number. -/
theorem leafAt_ofFields_shared :
    let a := Bytes.ofString "a"
    let b := Bytes.ofString "b"
    let c := Bytes.ofString "c d"
    let digits := Bytes.ofString "01"
    let x := some (Bytes.ofString "x")
    let fields := [([a, b], x), ([a, c, digits], none), ([digits], x)]
    let order := [([digits], x), ([a, c, digits], none), ([a, b], x)]
    (AreIndependent fields ∧ order.Perm fields) ∧
      ofFields order = [(digits, .value x),
        (a, .map [(c, .map [(digits, .value none)]), (b, .value x)])] ∧
      (∀ f ∈ fields, follow? (.map (ofFields order)) f.1 = some (.value f.2)) ∧
        ∀ path text, LeafAt (.map (ofFields order)) path text ↔ (path, text) ∈ fields := by
  intro a b c digits x fields order
  have ha : IsWord a := ⟨by decide, by decide, by decide, by decide⟩
  have hb : IsWord b := ⟨by decide, by decide, by decide, by decide⟩
  have hc : IsWord c := ⟨by decide, by decide, by decide, by decide⟩
  have hdigits : IsWord digits := ⟨by decide, by decide, by decide, by decide⟩
  have h : AreIndependent fields := by
    refine ⟨by decide, ?_, ?_⟩
    · simp only [fields, List.forall_mem_cons]
      exact ⟨⟨ha, hb, List.forall_mem_nil _⟩, ⟨ha, hc, hdigits, List.forall_mem_nil _⟩,
        ⟨hdigits, List.forall_mem_nil _⟩, List.forall_mem_nil _⟩
    · simp only [fields, Apart]
      decide
  have horder : order.Perm fields := by decide
  exact ⟨⟨h, horder⟩, by rfl, leafAt_ofFields h horder⟩

end MarkupSelect.FormValue
