import MarkupSelect.Locate
import MarkupSelect.Proofs.Matches

/-!
# What a filter keeps

A run of a filter visits the candidates in order, asks about each whose offset is not taken yet, and
ends at the first stop. What is kept in the end are the candidates that were kept at a visit. A
filter without state keeps candidates that it accepts: without a stop every one of them, and with
one at least the first.
-/

namespace MarkupSelect

/-- What is kept after the answer to a candidate. -/
def Verdict.applied (kept : Matches) (e : Nat × Bytes) : Verdict → Matches
  | .skip => kept
  | _ => kept.insert e.1 e.2

/-- What became of a candidate, an offset with a start tag: the answer of the filter, if it was
asked. -/
structure Visit where
  candidate : Nat × Bytes
  answer : Option Verdict
deriving DecidableEq, Repr

namespace Visit

/-- The candidate was kept. -/
def Keeps (v : Visit) : Prop := v.answer = some .keep ∨ v.answer = some .keepAndStop

/-- The search ended here. -/
def Stops (v : Visit) : Prop := v.answer = some .keepAndStop

/-- Every answer but one keeps the candidate. -/
theorem keeps_iff {v : Visit} : v.Keeps ↔ ∃ verdict, v.answer = some verdict ∧ verdict ≠ .skip := by
  rw [Keeps]
  constructor
  · rintro (h | h)
    · exact ⟨_, h, by decide⟩
    · exact ⟨_, h, by decide⟩
  · rintro ⟨verdict, h, hverdict⟩
    cases verdict with
    | skip => exact absurd rfl hverdict
    | keep => exact .inl h
    | keepAndStop => exact .inr h

end Visit

namespace Verdict

variable {kept : Matches} {e : Nat × Bytes}

/-- After an answer there is what was there before, and the candidate if it was kept. -/
theorem mem_applied_iff (hfree : kept.contains e.1 = false) {verdict : Verdict} {d : Nat × Bytes} :
    d ∈ (verdict.applied kept e).entries ↔ d ∈ kept.entries ∨ verdict ≠ .skip ∧ e = d := by
  cases verdict with
  | skip => simp [applied]
  | _ => simp [applied, Matches.mem_insert_iff hfree, @eq_comm _ d]

/-- After an answer the offsets are taken that were taken before, and that of the candidate if it
was kept. -/
theorem contains_applied_iff {verdict : Verdict} {offset : Nat} :
    (verdict.applied kept e).contains offset = true ↔
      kept.contains offset = true ∨ verdict ≠ .skip ∧ e.1 = offset := by
  have hinsert : (kept.insert e.1 e.2).contains offset = true ↔
      kept.contains offset = true ∨ e.1 = offset := by
    rw [Matches.contains_eq_isSome_get?, Matches.contains_eq_isSome_get?, Matches.get?_insert]
    by_cases h : e.1 = offset
    · simp [h]
    · simp [h]
  cases verdict with
  | skip => simp [applied]
  | _ => simp [applied, hinsert]

end Verdict

namespace Filter

variable {σ : Type}

/-- From a state and what is kept already, a filter is run over candidates by some visits, and this
is what is kept and remembered in the end. -/
inductive Run (filter : Filter σ) :
    σ → Matches → List (Nat × Bytes) → List Visit → Matches × σ → Prop
  | nil {state : σ} {kept : Matches} : Run filter state kept [] [] (kept, state)
  | unasked {state : σ} {kept : Matches} {e : Nat × Bytes} {candidates : List (Nat × Bytes)}
      {visits : List Visit} {result : Matches × σ} (htaken : kept.contains e.1 = true)
      (hrest : Run filter state kept candidates visits result) :
      Run filter state kept (e :: candidates) (⟨e, none⟩ :: visits) result
  | asked {state next : σ} {kept : Matches} {e : Nat × Bytes} {candidates : List (Nat × Bytes)}
      {verdict : Verdict} {visits : List Visit} {result : Matches × σ}
      (hfree : kept.contains e.1 = false) (hanswer : filter state e.2 = (verdict, next))
      (hgoes : verdict ≠ .keepAndStop)
      (hrest : Run filter next (verdict.applied kept e) candidates visits result) :
      Run filter state kept (e :: candidates) (⟨e, some verdict⟩ :: visits) result
  | stopped {state next : σ} {kept : Matches} {e : Nat × Bytes} {candidates : List (Nat × Bytes)}
      (hfree : kept.contains e.1 = false) (hanswer : filter state e.2 = (.keepAndStop, next)) :
      Run filter state kept (e :: candidates) [⟨e, some .keepAndStop⟩]
        (Verdict.keepAndStop.applied kept e, next)

/-- However a filter is run, there are visits by which it is run. -/
theorem exists_run (filter : Filter σ) (state : σ) (kept : Matches)
    (candidates : List (Nat × Bytes)) :
    ∃ visits, Run filter state kept candidates visits (filter.run state kept candidates) := by
  induction candidates generalizing state kept with
  | nil => exact ⟨[], .nil⟩
  | cons e candidates ih =>
    rw [run]
    split
    · next htaken =>
      obtain ⟨visits, hrest⟩ := ih state kept
      exact ⟨_, .unasked htaken hrest⟩
    · next hfree =>
      rw [Bool.not_eq_true] at hfree
      split
      · next next hanswer =>
        obtain ⟨visits, hrest⟩ := ih next kept
        exact ⟨_, .asked hfree hanswer (by decide) hrest⟩
      · next next hanswer =>
        obtain ⟨visits, hrest⟩ := ih next (kept.insert e.1 e.2)
        exact ⟨_, .asked hfree hanswer (by decide) hrest⟩
      · next next hanswer => exact ⟨_, .stopped hfree hanswer⟩

namespace Run

variable {filter : Filter σ} {state : σ} {kept : Matches} {candidates : List (Nat × Bytes)}
  {visits : List Visit} {result : Matches × σ}

/-- The candidates are visited in order. -/
theorem visited (h : Run filter state kept candidates visits result) :
    visits.map Visit.candidate <+: candidates := by
  induction h with
  | nil => exact List.nil_prefix
  | unasked _ _ ih => exact List.cons_prefix_cons.mpr ⟨rfl, ih⟩
  | asked _ _ _ _ ih => exact List.cons_prefix_cons.mpr ⟨rfl, ih⟩
  | stopped => exact List.cons_prefix_cons.mpr ⟨rfl, List.nil_prefix⟩

/-- Without a stop all candidates are visited. -/
theorem complete (h : Run filter state kept candidates visits result)
    (hstop : ∀ v ∈ visits, ¬ v.Stops) : visits.map Visit.candidate = candidates := by
  induction h with
  | nil => rfl
  | unasked _ _ ih =>
    rw [List.map_cons, ih fun v hv ↦ hstop v (List.mem_cons_of_mem _ hv)]
  | asked _ _ _ _ ih =>
    rw [List.map_cons, ih fun v hv ↦ hstop v (List.mem_cons_of_mem _ hv)]
  | stopped => exact absurd rfl (hstop _ List.mem_cons_self)

/-- Nothing is visited behind a stop. -/
theorem ends (h : Run filter state kept candidates visits result) :
    visits.Pairwise fun v _ ↦ ¬ v.Stops := by
  induction h with
  | nil => exact .nil
  | unasked _ _ ih => exact .cons (fun _ _ ↦ by simp [Visit.Stops]) ih
  | asked _ _ hgoes _ ih => exact .cons (fun _ _ ↦ by simpa [Visit.Stops] using hgoes) ih
  | stopped => exact List.pairwise_singleton _ _

/-- The filter is not asked about a candidate exactly if its offset was taken before. -/
theorem unasked_iff (h : Run filter state kept candidates visits result)
    {before after : List Visit} {v : Visit} (hv : visits = before ++ v :: after) :
    v.answer = none ↔
      kept.contains v.candidate.1 = true ∨
        ∃ w ∈ before, w.Keeps ∧ w.candidate.1 = v.candidate.1 := by
  induction h generalizing before with
  | nil => simp at hv
  | unasked htaken _ ih =>
    cases before with
    | nil =>
      obtain ⟨rfl, -⟩ := List.cons.inj hv
      simp [htaken]
    | cons w before =>
      obtain ⟨rfl, hlater⟩ := List.cons.inj hv
      simp [ih hlater, Visit.keeps_iff]
  | asked hfree _ _ _ ih =>
    cases before with
    | nil =>
      obtain ⟨rfl, -⟩ := List.cons.inj hv
      simp [hfree]
    | cons w before =>
      obtain ⟨rfl, hlater⟩ := List.cons.inj hv
      simp [ih hlater, Verdict.contains_applied_iff, Visit.keeps_iff, or_assoc]
  | stopped hfree =>
    cases before with
    | nil =>
      obtain ⟨rfl, -⟩ := List.cons.inj hv
      simp [hfree]
    | cons w before => simp at hv

/-- In the end there is what was kept before, and every candidate that was kept at a visit. -/
theorem mem_iff (h : Run filter state kept candidates visits result) {e : Nat × Bytes} :
    e ∈ result.1.entries ↔ e ∈ kept.entries ∨ ∃ v ∈ visits, v.Keeps ∧ v.candidate = e := by
  induction h with
  | nil => simp
  | unasked _ _ ih => simp [ih, Visit.keeps_iff]
  | asked hfree _ _ _ ih =>
    simp [ih, Verdict.mem_applied_iff hfree, Visit.keeps_iff, or_assoc]
  | stopped hfree _ => simp [Verdict.mem_applied_iff hfree, Visit.keeps_iff]

/-- What was visited and not skipped leaves an entry at its offset. -/
theorem contains_of_mem (h : Run filter state kept candidates visits result) {v : Visit}
    (hv : v ∈ visits) (hanswer : v.answer ≠ some .skip) :
    result.1.contains v.candidate.1 = true := by
  have hentry : ∀ d, d ∈ kept.entries ∨ (∃ w ∈ visits, w.Keeps ∧ w.candidate = d) →
      d.1 = v.candidate.1 → result.1.contains v.candidate.1 = true := by
    intro d hd hoffset
    exact List.any_eq_true.mpr ⟨d, h.mem_iff.mpr hd, beq_iff_eq.mpr hoffset⟩
  obtain ⟨before, after, hsplit⟩ := List.append_of_mem hv
  cases hcase : v.answer with
  | none =>
    rcases (h.unasked_iff hsplit).mp hcase with htaken | ⟨w, hw, hkeeps, hoffset⟩
    · obtain ⟨d, hd, hoffset⟩ := List.any_eq_true.mp htaken
      exact hentry d (.inl hd) (beq_iff_eq.mp hoffset)
    · have hmem : w ∈ visits := by
        rw [hsplit]
        exact List.mem_append_left _ hw
      exact hentry w.candidate (.inr ⟨w, hmem, hkeeps, rfl⟩) hoffset
  | some verdict =>
    have hkeeps : v.Keeps := by
      rw [Visit.keeps_iff]
      refine ⟨verdict, hcase, ?_⟩
      rintro rfl
      exact hanswer hcase
    exact hentry v.candidate (.inr ⟨v, hv, hkeeps, rfl⟩) rfl

end Run

/-! ### Filters without state -/

section OfVerdict

variable {verdict : Bytes → Verdict} {candidates : List (Nat × Bytes)} {e : Nat × Bytes}

/-- A filter without state always gives the same answer. -/
theorem Run.answer_eq {state : Unit} {kept : Matches} {visits : List Visit}
    {result : Matches × Unit} (h : Run (ofVerdict verdict) state kept candidates visits result) :
    ∀ v ∈ visits, ∀ answer ∈ v.answer, answer = verdict v.candidate.2 := by
  induction h with
  | nil => simp
  | unasked _ _ ih => simpa using ih
  | asked _ hanswer _ _ ih =>
    rw [List.forall_mem_cons]
    refine ⟨?_, ih⟩
    rintro _ ⟨⟩
    exact (congrArg Prod.fst hanswer).symm
  | stopped _ hanswer =>
    rw [List.forall_mem_singleton]
    rintro _ ⟨⟩
    exact (congrArg Prod.fst hanswer).symm

/-- What a filter keeps is a candidate that it accepts. -/
theorem mem_run (h : e ∈ ((ofVerdict verdict).run () .empty candidates).1.entries) :
    e ∈ candidates ∧ verdict e.2 ≠ .skip := by
  obtain ⟨visits, hrun⟩ := exists_run (ofVerdict verdict) () .empty candidates
  obtain ⟨v, hv, hkeeps, rfl⟩ := (hrun.mem_iff.mp h).resolve_left (by simp)
  obtain ⟨answer, hanswer, hskip⟩ := Visit.keeps_iff.mp hkeeps
  constructor
  · exact hrun.visited.subset (List.mem_map_of_mem hv)
  · rw [← hrun.answer_eq v hv answer hanswer]
    exact hskip

/-- A candidate that is accepted leaves an entry at its offset, unless the filter stops before. -/
theorem exists_mem_run (he : e ∈ candidates) (hv : verdict e.2 ≠ .skip) :
    ∃ c, c ∈ ((ofVerdict verdict).run () .empty candidates).1.entries ∧
      (c.1 = e.1 ∨ verdict c.2 = .keepAndStop) := by
  obtain ⟨visits, hrun⟩ := exists_run (ofVerdict verdict) () .empty candidates
  by_cases hstop : ∃ v ∈ visits, v.Stops
  · obtain ⟨v, hmem, hstops⟩ := hstop
    refine ⟨v.candidate, hrun.mem_iff.mpr (.inr ⟨v, hmem, .inr hstops, rfl⟩), .inr ?_⟩
    exact (hrun.answer_eq v hmem _ hstops).symm
  · rw [not_exists] at hstop
    rw [← hrun.complete fun v hmem hstops ↦ hstop v ⟨hmem, hstops⟩] at he
    obtain ⟨v, hmem, rfl⟩ := List.mem_map.mp he
    have hanswer : v.answer ≠ some .skip := fun hskip ↦ hv (hrun.answer_eq v hmem _ hskip).symm
    obtain ⟨c, hc, hoffset⟩ := List.any_eq_true.mp (hrun.contains_of_mem hmem hanswer)
    exact ⟨c, hc, .inl (beq_iff_eq.mp hoffset)⟩

/-- If no two candidates for one offset differ, a filter that never stops keeps exactly what it
accepts. -/
theorem mem_run_iff (hc : Matches.Consistent candidates)
    (hstop : ∀ tag, verdict tag ≠ .keepAndStop) :
    e ∈ ((ofVerdict verdict).run () .empty candidates).1.entries ↔
      e ∈ candidates ∧ verdict e.2 ≠ .skip := by
  constructor
  · exact mem_run
  · rintro ⟨he, hv⟩
    obtain ⟨c, hmem, hoffset | hstops⟩ := exists_mem_run he hv
    · exact hc c (mem_run hmem).1 e he hoffset ▸ hmem
    · exact absurd hstops (hstop c.2)

/-- If no two candidates that a filter accepts differ, it keeps exactly what it accepts. -/
theorem mem_run_iff_of_unique
    (hc : ∀ a ∈ candidates, ∀ b ∈ candidates, verdict a.2 ≠ .skip → verdict b.2 ≠ .skip → a = b) :
    e ∈ ((ofVerdict verdict).run () .empty candidates).1.entries ↔
      e ∈ candidates ∧ verdict e.2 ≠ .skip := by
  constructor
  · exact mem_run
  · rintro ⟨he, hv⟩
    obtain ⟨c, hmem, -⟩ := exists_mem_run he hv
    obtain ⟨hcandidate, hcv⟩ := mem_run hmem
    exact hc c hcandidate e he hcv hv ▸ hmem

/-- A filter that stops at what it accepts keeps the first candidate that it accepts. -/
theorem entries_run_of_stops (hkeep : ∀ tag, verdict tag ≠ .keep) :
    ((ofVerdict verdict).run () .empty candidates).1.entries =
      (candidates.find? fun e ↦ verdict e.2 = .keepAndStop).toList := by
  induction candidates with
  | nil => rfl
  | cons e candidates ih =>
    have hfree : Matches.empty.contains e.1 = false := rfl
    rw [run, hfree, if_neg Bool.false_ne_true, ofVerdict]
    cases hverdict : verdict e.2 with
    | skip => rw [List.find?_cons_of_neg (by simp [hverdict]), ← ih]
    | keep => exact absurd hverdict (hkeep e.2)
    | keepAndStop =>
      rw [List.find?_cons_of_pos (by simp [hverdict])]
      rfl

end OfVerdict

end Filter

/-!
### The course of a search

A filter may remember what it is asked, so it matters which candidates it is asked about, in which
order and how often. The course of a search tells this of every filter. A filter that records its
calls makes them seen without changing what is found.
-/

/-- The call of the filter at a visit, with its answer. -/
def Visit.call? (v : Visit) : Option (Bytes × Verdict) := v.answer.map (v.candidate.2, ·)

namespace Filter

variable {σ : Type}

/-- The filter that answers as another one and records what it is asked and what it answers. -/
def recording (filter : Filter σ) : Filter (σ × List (Bytes × Verdict)) := fun memory tag ↦
  let answer := filter memory.1 tag
  (answer.1, answer.2, memory.2 ++ [(tag, answer.1)])

/-- The recording filter is run by the same visits, and records the calls among them. -/
theorem Run.recording {filter : Filter σ} {state : σ} {kept : Matches}
    {candidates : List (Nat × Bytes)} {visits : List Visit} {result : Matches × σ}
    (h : Run filter state kept candidates visits result)
    (calls : List (Bytes × Verdict)) :
    filter.recording.run (state, calls) kept candidates =
      (result.1, result.2, calls ++ visits.filterMap Visit.call?) := by
  induction h generalizing calls with
  | nil => rw [run_nil, List.filterMap_nil, List.append_nil]
  | unasked htaken _ ih => rw [run, if_pos htaken, ih, List.filterMap_cons_none rfl]
  | @asked state next kept e _ verdict visits _ hfree hanswer hgoes _ ih =>
    have hcall : filter.recording (state, calls) e.2 =
        (verdict, next, calls ++ [(e.2, verdict)]) := by
      rw [Filter.recording, hanswer]
    have hcalls : calls ++ (⟨e, some verdict⟩ :: visits).filterMap Visit.call? =
        calls ++ [(e.2, verdict)] ++ visits.filterMap Visit.call? := List.append_cons _ _ _
    rw [run, hfree, if_neg Bool.false_ne_true, hcall, hcalls]
    cases verdict with
    | skip => exact ih _
    | keep => exact ih _
    | keepAndStop => exact absurd rfl hgoes
  | stopped hfree hanswer =>
    rw [run, hfree, if_neg Bool.false_ne_true, Filter.recording, hanswer]
    rfl

/-- A search offers candidates to a filter that has a state, by these visits, in order and each
once, up to the first stop. The filter is not asked about a candidate exactly if one was kept at its
offset, and exactly the candidates are found that were kept. The search is one for every filter, so
that it can be run with the filter and with the one that records the calls. -/
structure Course (search : (τ : Type) → Filter τ → τ → Matches × τ) (filter : Filter σ) (state : σ)
    (candidates : List (Nat × Bytes)) (visits : List Visit) : Prop where
  visited : visits.map Visit.candidate <+: candidates
  ends : visits.Pairwise fun v _ ↦ ¬ v.Stops
  complete : (∀ v ∈ visits, ¬ v.Stops) → visits.map Visit.candidate = candidates
  unasked_iff : ∀ before v after, visits = before ++ v :: after →
    (v.answer = none ↔ ∃ w ∈ before, w.Keeps ∧ w.candidate.1 = v.candidate.1)
  calls : (search _ filter.recording (state, [])).2.2 = visits.filterMap Visit.call?
  undisturbed : (search _ filter.recording (state, [])).1 = (search σ filter state).1
  mem_iff : ∀ e, e ∈ (search σ filter state).1.entries ↔ ∃ v ∈ visits, v.Keeps ∧ v.candidate = e

/-- A search that runs the filter over candidates has a course. -/
theorem exists_course (filter : Filter σ) (state : σ) (candidates : List (Nat × Bytes)) :
    ∃ visits, Course (fun _ filter state ↦ filter.run state .empty candidates) filter state
      candidates visits := by
  obtain ⟨visits, h⟩ := exists_run filter state .empty candidates
  refine ⟨visits, h.visited, h.ends, h.complete, fun before v after hv ↦ ?_, ?_, ?_, fun e ↦ ?_⟩
  · rw [h.unasked_iff hv]
    simp [Matches.contains]
  · rw [h.recording, List.nil_append]
  · rw [h.recording]
  · rw [h.mem_iff]
    simp

/-- If no two candidates have one offset, the filter is asked about every candidate visited. -/
theorem Course.answer_ne_none {search : (τ : Type) → Filter τ → τ → Matches × τ}
    {filter : Filter σ} {state : σ} {candidates : List (Nat × Bytes)} {visits : List Visit}
    (h : Course search filter state candidates visits)
    (hascending : candidates.Pairwise fun a b ↦ a.1 < b.1) : ∀ v ∈ visits, v.answer ≠ none := by
  intro v hv hnone
  obtain ⟨before, after, hsplit⟩ := List.append_of_mem hv
  obtain ⟨w, hw, -, hoffset⟩ := (h.unasked_iff before v after hsplit).mp hnone
  have hvisits := hascending.sublist h.visited.sublist
  rw [List.pairwise_map, hsplit, List.pairwise_append] at hvisits
  have hlt := hvisits.2.2 w hw v List.mem_cons_self
  rw [hoffset] at hlt
  exact Nat.lt_irrefl _ hlt

end Filter

end MarkupSelect
