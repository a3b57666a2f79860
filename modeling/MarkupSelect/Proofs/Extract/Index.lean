import Mathlib.Data.List.Induction
import MarkupSelect.Extract.Form

/-!
# Keys that are numbers

A key that is a number is written with the digits of that number and no others, so that there is one
key for each number. Entries are numbered with words of 64 bits: the next number is new, until the
greatest of them all is in use and the count begins again.
-/

namespace MarkupSelect.FormValue

variable {key digits : Bytes} {b : UInt8} {n : Nat}

/-! ### Digits -/

/-- A number below ten has one digit. -/
theorem indexKey_of_lt (h : n < 10) : indexKey n = [Ascii.zero + UInt8.ofNat n] := by
  have hdigit : ∀ d : Fin 10, Bytes.ofChars [Nat.digitChar d] = [Ascii.zero + UInt8.ofNat d] := by
    decide
  rw [indexKey, Nat.toDigits_of_lt_base h]
  exact hdigit ⟨n, h⟩

/-- The last digit of a number stands behind those of its tenth. -/
theorem indexKey_of_le (h : 10 ≤ n) :
    indexKey n = indexKey (n / 10) ++ [Ascii.zero + UInt8.ofNat (n % 10)] := by
  have hlast : n % 10 < 10 := Nat.mod_lt n (by decide)
  rw [← indexKey_of_lt hlast, indexKey, Nat.toDigits_of_base_le (by decide) h, Bytes.ofChars_append,
    indexKey, indexKey, Nat.toDigits_of_lt_base hlast]

/-- One more digit counts once and those in front of it ten times. -/
theorem decimal_concat (digits : Bytes) (b : UInt8) :
    decimal (digits ++ [b]) = decimal digits * 10 + (b.toNat - Ascii.zero.toNat) := by
  rw [decimal, List.foldl_append]
  rfl

private theorem toNat_digit (h : n < 10) :
    (Ascii.zero + UInt8.ofNat n).toNat - Ascii.zero.toNat = n := by
  have hdigit : ∀ d : Fin 10, (Ascii.zero + UInt8.ofNat d).toNat - Ascii.zero.toNat = d := by
    decide
  exact hdigit ⟨n, h⟩

private theorem isDigit_digit (h : n < 10) : Ascii.isDigit (Ascii.zero + UInt8.ofNat n) = true := by
  have hdigit : ∀ d : Fin 10, Ascii.isDigit (Ascii.zero + UInt8.ofNat d) = true := by
    decide
  exact hdigit ⟨n, h⟩

private theorem digit_of_isDigit (b : UInt8) (h : Ascii.isDigit b = true) :
    b.toNat - Ascii.zero.toNat < 10 ∧
      Ascii.zero + UInt8.ofNat (b.toNat - Ascii.zero.toNat) = b := by
  revert h
  exact Ascii.forall_byte (p := fun b ↦ Ascii.isDigit b = true →
    b.toNat - Ascii.zero.toNat < 10 ∧ Ascii.zero + UInt8.ofNat (b.toNat - Ascii.zero.toNat) = b)
    (by decide +kernel) b

/-- The key of a number stands for that number. -/
@[simp] theorem decimal_indexKey (n : Nat) : decimal (indexKey n) = n := by
  induction n using Nat.strongRecOn with
  | ind n ih =>
    by_cases h : n < 10
    · rw [indexKey_of_lt h, ← List.nil_append [_], decimal_concat, toNat_digit h]
      exact Nat.zero_add n
    · rw [indexKey_of_le (by omega), decimal_concat, ih (n / 10) (by omega),
        toNat_digit (Nat.mod_lt n (by decide))]
      omega

/-- There is one key for each number. -/
theorem indexKey_injective : Function.Injective indexKey :=
  Function.LeftInverse.injective decimal_indexKey

/-! ### Numbers -/

/-- A number has digits, behind a `0` none. -/
theorem isIndex_cons_iff : isIndex (b :: digits) = true ↔
    (Ascii.isDigit b = true ∧ ∀ c ∈ digits, Ascii.isDigit c = true) ∧
      (b = Ascii.zero → digits = []) := by
  by_cases hzero : b = Ascii.zero
  · subst hzero
    cases digits with
    | nil => exact iff_of_true rfl ⟨⟨rfl, List.forall_mem_nil _⟩, fun _ ↦ rfl⟩
    | cons c digits => simp [isIndex]
  · simp [isIndex, hzero]

/-- One more digit may stand behind a number, unless that is `0`. -/
theorem isIndex_concat_iff (hne : digits ≠ []) :
    isIndex (digits ++ [b]) = true ↔
      isIndex digits = true ∧ digits ≠ [Ascii.zero] ∧ Ascii.isDigit b = true := by
  obtain ⟨c, rest, rfl⟩ := List.exists_cons_of_ne_nil hne
  rw [List.cons_append, isIndex_cons_iff, isIndex_cons_iff, List.forall_mem_append,
    List.forall_mem_singleton]
  constructor
  · rintro ⟨⟨hc, hrest, hb⟩, hzero⟩
    have hne_zero : c ≠ Ascii.zero := fun h ↦ List.concat_ne_nil _ _ (hzero h)
    exact ⟨⟨⟨hc, hrest⟩, fun h ↦ absurd h hne_zero⟩, fun h ↦ hne_zero (List.cons.inj h).1, hb⟩
  · rintro ⟨⟨⟨hc, hrest⟩, hzero⟩, hne_zero, hb⟩
    refine ⟨⟨hc, hrest, hb⟩, fun h ↦ absurd ?_ hne_zero⟩
    rw [hzero h, h]

/-- The key of a number is one. -/
theorem isIndex_indexKey (n : Nat) : isIndex (indexKey n) = true := by
  induction n using Nat.strongRecOn with
  | ind n ih =>
    by_cases h : n < 10
    · have hdigit : ∀ d : Fin 10, isIndex (indexKey d) = true := by
        decide +kernel
      exact hdigit ⟨n, h⟩
    · have hne : indexKey (n / 10) ≠ indexKey 0 := indexKey_injective.ne (by omega)
      have hnil : indexKey (n / 10) ≠ [] := by
        intro hnil
        have hindex := ih (n / 10) (by omega)
        rw [hnil] at hindex
        contradiction
      rw [indexKey_of_le (by omega), isIndex_concat_iff hnil]
      exact ⟨ih (n / 10) (by omega), hne, isDigit_digit (Nat.mod_lt n (by decide))⟩

/-- A key that is a number is written as that number is. -/
theorem indexKey_decimal (h : isIndex key = true) : indexKey (decimal key) = key := by
  induction key using List.reverseRecOn with
  | nil => contradiction
  | append_singleton digits b ih =>
    rw [decimal_concat]
    by_cases hne : digits = []
    · subst hne
      obtain ⟨hlt, hb⟩ := digit_of_isDigit b (isIndex_cons_iff.mp h).1.1
      rw [decimal, List.foldl_nil, Nat.zero_mul, Nat.zero_add, indexKey_of_lt hlt, hb,
        List.nil_append]
    · obtain ⟨hindex, hzero, hdigit⟩ := (isIndex_concat_iff hne).mp h
      obtain ⟨hlt, hb⟩ := digit_of_isDigit b hdigit
      have hsame := ih hindex
      have hpos : decimal digits ≠ 0 := by
        intro h0
        rw [h0] at hsame
        exact hzero hsame.symm
      have hdiv : (decimal digits * 10 + (b.toNat - Ascii.zero.toNat)) / 10 = decimal digits := by
        omega
      have hmod : (decimal digits * 10 + (b.toNat - Ascii.zero.toNat)) % 10 =
          b.toNat - Ascii.zero.toNat := by
        omega
      rw [indexKey_of_le (by omega), hdiv, hmod, hsame, hb]

/-- A key has an index exactly if it is the key of that index, which has 64 bits. -/
theorem index?_eq_some_iff : index? key = some n ↔ key = indexKey n ∧ n < indexCount := by
  unfold index?
  constructor
  · intro h
    split at h
    · next hindex =>
      rw [Bool.and_eq_true, decide_eq_true_eq] at hindex
      rw [← Option.some.inj h, indexKey_decimal hindex.1]
      exact ⟨rfl, hindex.2⟩
    · contradiction
  · rintro ⟨rfl, hn⟩
    rw [isIndex_indexKey, decimal_indexKey, if_pos (by simpa using hn)]

/-! ### The next number -/

/-- The key of the last index. -/
def lastKey : Bytes := indexKey (indexCount - 1)

/-- The next number is not in use, but for `0` behind the last index. -/
theorem nextIndex_cases (entries : Entries) :
    indexKey (nextIndex entries) ∉ entries.map (·.1) ∨
      lastKey ∈ entries.map (·.1) ∧ nextIndex entries = 0 := by
  unfold nextIndex
  cases hmax : (entries.filterMap fun e ↦ index? e.1).max? with
  | none =>
    -- No number is in use.
    refine .inl fun hmem ↦ ?_
    obtain ⟨e, he, hkey⟩ := List.mem_map.mp hmem
    rw [List.max?_eq_none_iff, List.filterMap_eq_nil_iff] at hmax
    have hindex : index? e.1 = some 0 := index?_eq_some_iff.mpr ⟨hkey, by decide⟩
    rw [hmax e he] at hindex
    contradiction
  | some n =>
    obtain ⟨hmem, hle⟩ := List.max?_eq_some_iff.mp hmax
    obtain ⟨e, he, hindex⟩ := List.mem_filterMap.mp hmem
    obtain ⟨hkey, hn⟩ := index?_eq_some_iff.mp hindex
    dsimp only
    by_cases hlast : n + 1 < indexCount
    · rw [Nat.mod_eq_of_lt hlast]
      refine .inl fun hmem ↦ ?_
      obtain ⟨f, hf, hnext⟩ := List.mem_map.mp hmem
      have hused := hle (n + 1)
        (List.mem_filterMap.mpr ⟨f, hf, index?_eq_some_iff.mpr ⟨hnext, hlast⟩⟩)
      omega
    · have hcount : n + 1 = indexCount := by omega
      refine .inr ⟨List.mem_map.mpr ⟨e, he, ?_⟩, by rw [hcount, Nat.mod_self]⟩
      rw [hkey, lastKey, ← hcount, Nat.add_sub_cancel]

end MarkupSelect.FormValue
