import Mathlib.Data.List.Dedup
import Mathlib.Data.List.Induction
import MarkupSelect.Proofs.Cache.Contract

/-!
# What a cache keeps

After any sequence of requests a cache keeps those texts that were used most recently, as many as it
has room for, and a request is answered from it exactly if its text is one of them. What was used
most recently is told from the sequence alone: of the texts that compile, the last use of each.
-/

namespace MarkupSelect.Selector

/-- Whether a text compiles. -/
def isSelector (text : String) : Bool := (compile text).isOk

/-- The texts of a sequence that compile, each once, the most recently used first. -/
def recent (texts : List String) : List String := (texts.filter isSelector).dedup.reverse

/-! ### Sequences and their last uses -/

private theorem dedup_concat (texts : List String) (text : String) :
    (texts ++ [text]).dedup = texts.dedup.filter (· != text) ++ [text] := by
  induction texts with
  | nil => simp
  | cons first texts ih =>
    rw [List.cons_append, List.dedup_cons, List.dedup_cons, ih]
    by_cases hsame : first = text
    · subst hsame
      rw [if_pos (by simp)]
      split
      · rfl
      · rw [List.filter_cons_of_neg (by simp)]
    · by_cases hlater : first ∈ texts
      · rw [if_pos (List.mem_append_left _ hlater), if_pos hlater]
      · rw [if_neg (by simp [hlater, hsame]), if_neg hlater,
          List.filter_cons_of_pos (by simpa using hsame), List.cons_append]

/-- A use of a text makes it the most recently used. -/
theorem recent_concat {text : String} (h : isSelector text = true) (texts : List String) :
    recent (texts ++ [text]) = text :: (recent texts).filter (· != text) := by
  rw [recent, List.filter_append, List.filter_singleton, h, cond_true, dedup_concat,
    List.reverse_append, List.reverse_singleton, List.singleton_append, recent,
    List.filter_reverse]

/-- A text that does not compile is not used. -/
theorem recent_concat_of_not {text : String} (h : isSelector text = false) (texts : List String) :
    recent (texts ++ [text]) = recent texts := by
  rw [recent, List.filter_append, List.filter_singleton, h, cond_false, List.append_nil,
    recent]

private theorem take_cons_filter {texts : List String} (h : texts.Nodup) (text : String) (n : Nat) :
    (text :: (texts.take n).filter (· != text)).take n =
      (text :: texts.filter (· != text)).take n := by
  cases n with
  | zero => rfl
  | succ n =>
    rw [List.take_succ_cons, List.take_succ_cons]
    congr 1
    induction texts generalizing n with
    | nil => rfl
    | cons first texts ih =>
      rw [List.nodup_cons] at h
      rw [List.take_succ_cons]
      by_cases hsame : first = text
      · subst hsame
        have hothers : texts.filter (· != first) = texts := by
          rw [List.filter_eq_self]
          intro other hother
          rw [bne_iff_ne]
          exact fun he ↦ h.1 (he ▸ hother)
        have hothers' : (texts.take n).filter (· != first) = texts.take n := by
          rw [List.filter_eq_self]
          intro other hother
          rw [bne_iff_ne]
          exact fun he ↦ h.1 (he ▸ List.mem_of_mem_take hother)
        rw [List.filter_cons_of_neg (by simp), List.filter_cons_of_neg (by simp), hothers, hothers',
          List.take_take, Nat.min_self]
      · rw [List.filter_cons_of_pos (by simpa using hsame),
          List.filter_cons_of_pos (by simpa using hsame)]
        cases n with
        | zero => rfl
        | succ n => rw [List.take_succ_cons, List.take_succ_cons, ih h.2]

/-! ### One request -/

namespace Store

variable {γ : Type} {S : Store γ} {c : γ} {text : String}

/-- A request for a text that is found. -/
theorem compile_of_get_some {selector : Selector} (h : (S.get c text).1 = some selector) :
    S.compile c text = (.ok selector, .hit text, (S.get c text).2) := by
  rw [compile]
  split
  · next found after hget =>
    rw [hget] at h ⊢
    rw [← Option.some.inj h]
  · next after hget =>
    rw [hget] at h
    contradiction

/-- A request for a text that is neither found nor compiles. -/
theorem compile_of_error {error : SelectorError} (h : (S.get c text).1 = none)
    (he : Selector.compile text = .error error) :
    S.compile c text = (.error error, .invalid text error, (S.get c text).2) := by
  rw [compile]
  split
  · next found after hget =>
    rw [hget] at h
    contradiction
  · next after hget => rw [he, hget]

/-- A request for a text that is not found but compiles. -/
theorem compile_of_ok {selector : Selector} (h : (S.get c text).1 = none)
    (hs : Selector.compile text = .ok selector) :
    S.compile c text = (.ok selector, .compiled text selector.alternatives.length,
      S.put (S.get c text).2 text selector) := by
  rw [compile]
  split
  · next found after hget =>
    rw [hget] at h
    contradiction
  · next after hget => rw [hs, hget]

/-- A request keeps a store sound. -/
theorem IsSound.compile (hS : S.IsLeastRecent) (hc : S.IsSound c) (text : String) :
    S.IsSound (S.compile c text).2.2 := by
  cases hget : (S.get c text).1 with
  | some selector =>
    rw [compile_of_get_some hget]
    exact hc.get hS text
  | none =>
    cases hcompile : Selector.compile text with
    | error error =>
      rw [compile_of_error hget hcompile]
      exact hc.get hS text
    | ok selector =>
      rw [compile_of_ok hget hcompile]
      exact (hc.get hS text).put hS hcompile

/-- A request is answered from the store exactly if something is kept for its text. -/
theorem event_eq_hit_iff (hS : S.IsLeastRecent) (c : γ) (text : String) :
    (S.compile c text).2.1 = .hit text ↔ text ∈ S.texts c := by
  rcases hS.get_cases c text with ⟨hnot, hnone, -⟩ | ⟨selector, hmem, hsome, -⟩
  · refine iff_of_false ?_ hnot
    cases hcompile : Selector.compile text with
    | error error => simp [compile_of_error hnone hcompile]
    | ok selector => simp [compile_of_ok hnone hcompile]
  · rw [compile_of_get_some hsome]
    exact iff_of_true rfl (List.mem_map_of_mem (f := (·.1)) hmem)

/-- A request for a text that does not compile leaves the entries as they are. -/
theorem entries_compile_of_error (hS : S.IsLeastRecent) (hc : S.IsSound c) {error : SelectorError}
    (h : Selector.compile text = .error error) :
    S.entries (S.compile c text).2.2 = S.entries c := by
  obtain ⟨hnone, hsame⟩ := hS.get_of_not_mem (hc.not_mem_texts h)
  rw [compile_of_error hnone h]
  exact hsame

/-- Found or not, a text that compiles comes first after a request for it, and as many of the others
stay as there is room for. -/
theorem texts_compile (hS : S.IsLeastRecent) (hc : S.IsSound c) {selector : Selector}
    (h : Selector.compile text = .ok selector) :
    S.texts (S.compile c text).2.2 =
      (text :: (S.texts c).filter (· != text)).take Cache.capacity := by
  have hothers : ((S.entries c).filter (·.1 != text)).map (·.1) =
      (S.texts c).filter (· != text) := by
    rw [texts, List.filter_map]
    rfl
  rcases hS.get_cases c text with ⟨hnot, hnone, hsame⟩ | ⟨found, hmem, hsome, hfirst⟩
  · have hbound : (S.entries (S.get c text).2).length ≤ Cache.capacity := by
      rw [hsame]
      exact hc.bounded
    rw [compile_of_ok hnone h, texts, hS.entries_put hbound, hsame, List.map_take, List.map_cons,
      hothers]
  · have hroom := (hc.get hS text).bounded
    rw [hfirst] at hroom
    rw [compile_of_get_some hsome, texts, hfirst, List.map_cons, hothers, List.take_of_length_le]
    rw [← hothers, List.length_cons, List.length_map]
    exact hroom

/-! ### All requests -/

/-- The store after requests for some texts, one after the other, from the empty store on. -/
def after (S : Store γ) (texts : List String) : γ :=
  texts.foldl (fun c text ↦ (S.compile c text).2.2) S.empty

/-- One more request is made to the store that the requests before it leave. -/
theorem after_concat (S : Store γ) (texts : List String) (text : String) :
    S.after (texts ++ [text]) = (S.compile (S.after texts) text).2.2 := by
  rw [after, List.foldl_concat, after]

/-- Every sequence of requests leaves a sound store. -/
theorem isSound_after (hS : S.IsLeastRecent) (texts : List String) : S.IsSound (S.after texts) := by
  induction texts using List.reverseRecOn with
  | nil => exact isSound_empty hS
  | append_singleton texts text ih =>
    rw [after_concat]
    exact ih.compile hS text

/-- The texts kept after a sequence of requests are the most recently used. -/
theorem texts_after (hS : S.IsLeastRecent) (texts : List String) :
    S.texts (S.after texts) = (recent texts).take Cache.capacity := by
  induction texts using List.reverseRecOn with
  | nil =>
    change (S.entries S.empty).map (·.1) = _
    rw [hS.entries_empty]
    rfl
  | append_singleton texts text ih =>
    have hsound := isSound_after hS texts
    rw [after_concat]
    cases hcompile : Selector.compile text with
    | error error =>
      have hnot : isSelector text = false := by rw [isSelector, hcompile]; rfl
      rw [Store.texts, entries_compile_of_error hS hsound hcompile, recent_concat_of_not hnot]
      exact ih
    | ok selector =>
      have his : isSelector text = true := by rw [isSelector, hcompile]; rfl
      have hdistinct : (recent texts).Nodup := List.nodup_reverse.mpr (List.nodup_dedup _)
      rw [texts_compile hS hsound hcompile, ih, take_cons_filter hdistinct, recent_concat his]

/-- After every sequence of requests a cache keeps, in the order of their last uses, the 256 most
recently used of the texts that compile, or all of them if they are fewer, each with what it
compiles to. The next request is answered from the cache exactly if its text is one of them, and it
changes nothing if its text does not compile. -/
theorem entries_after (hS : S.IsLeastRecent) (texts : List String) :
    S.texts (S.after texts) = (recent texts).take 256 ∧
      (∀ e ∈ S.entries (S.after texts), Selector.compile e.1 = .ok e.2) ∧
      ∀ text : String,
        ((S.compile (S.after texts) text).2.1 = .hit text ↔ text ∈ (recent texts).take 256) ∧
          ∀ error, Selector.compile text = .error error →
            S.entries (S.after (texts ++ [text])) = S.entries (S.after texts) := by
  have hsound := isSound_after hS texts
  have htexts := texts_after hS texts
  refine ⟨htexts, hsound.compiles, fun text ↦ ⟨?_, fun error herror ↦ ?_⟩⟩
  · rw [event_eq_hit_iff hS, htexts]
    rfl
  · rw [after_concat]
    exact entries_compile_of_error hS hsound herror

/-- A text with a blank in front is another text, one that does not compile is not kept, and one
that is asked for again moves to the front. -/
theorem entries_after_spaced :
    let texts := ["p", " p", "", "b", "p"]
    let c := Cache.asStore.after texts
    Cache.asStore.IsLeastRecent ∧ (recent texts).take 256 = ["p", "b", " p"] ∧
      Cache.asStore.texts c = (recent texts).take 256 ∧
        ((Cache.asStore.compile c " p").2.1 = .hit " p" ↔ " p" ∈ (recent texts).take 256) ∧
          Selector.compile "" = .error .empty ∧
            Cache.asStore.entries (Cache.asStore.after (texts ++ [""])) =
              Cache.asStore.entries c := by
  intro texts c
  have hS := Cache.isLeastRecent_asStore
  have hempty : Selector.compile "" = .error .empty := by rfl
  obtain ⟨htexts, -, hnext⟩ := entries_after hS texts
  exact ⟨hS, by decide, htexts, (hnext " p").1, hempty, (hnext "").2 _ hempty⟩

end Store

end MarkupSelect.Selector
