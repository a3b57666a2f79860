import MarkupSelect.Proofs.Cache.Recency
import MarkupSelect.Query.Batch

/-!
# Requests that take turns

In whatever order the requests to a shared cache take their turns, a request is answered with what
its text compiles to, after three turns of its own at most. A lock that is poisoned on the way only
makes the cache be passed by.
-/

namespace MarkupSelect.Selector

/-! ### One turn -/

/-- What a request has found out is right. -/
structure Request.IsRight (r : Request) : Prop where
  compiled {selector : Selector} : r.phase = .compiled selector → compile r.text = .ok selector
  answered {answer : Except SelectorError Selector} :
    r.phase = .answered answer → answer = compile r.text

/-- The number of turns that a request may still need. -/
def Phase.remaining : Phase → Nat
  | asked => 3
  | missed => 2
  | compiled _ => 1
  | answered _ => 0

/-- What one turn of a request does: the cache stays sound, what the request has found out is right,
it is for the same text, and it has come nearer to its answer. -/
structure Request.Advances {γ : Type} (S : Store γ) (r next : Request) (shared : Shared γ) :
    Prop where
  isSound : S.IsSound shared.cache
  isRight : next.IsRight
  text : next.text = r.text
  remaining : next.phase.remaining ≤ r.phase.remaining - 1

section

variable {γ : Type} {S : Store γ}

/-- In a sound cache a turn brings a request whose findings are right nearer to its answer. -/
theorem Request.advances_turn (hS : S.IsLeastRecent) {shared : Shared γ}
    (hc : S.IsSound shared.cache) {r : Request} (hr : r.IsRight) :
    r.Advances S (r.turn S shared).1 (r.turn S shared).2 := by
  obtain ⟨text, phase⟩ := r
  cases phase with
  | asked =>
    unfold turn
    dsimp only
    split
    · exact ⟨hc, ⟨by simp, by simp⟩, rfl, Nat.le_refl _⟩
    · split
      · next selector cache hget =>
        have hcompile : compile text = .ok selector :=
          hc.compile_of_get hS (by rw [hget])
        have hsound := hc.get hS text
        rw [hget] at hsound
        exact ⟨hsound, ⟨by simp, by simp [hcompile]⟩, rfl, Nat.zero_le _⟩
      · next cache hget =>
        have hsound := hc.get hS text
        rw [hget] at hsound
        exact ⟨hsound, ⟨by simp, by simp⟩, rfl, Nat.le_refl _⟩
  | missed =>
    unfold turn
    dsimp only
    split
    · next error hcompile => exact ⟨hc, ⟨by simp, by simp [hcompile]⟩, rfl, Nat.zero_le _⟩
    · next selector hcompile => exact ⟨hc, ⟨by simp [hcompile], by simp⟩, rfl, Nat.le_refl _⟩
  | compiled selector =>
    have hcompile : compile text = .ok selector := hr.compiled rfl
    unfold turn
    dsimp only
    refine ⟨?_, ⟨by simp, by simp [hcompile]⟩, rfl, Nat.le_refl _⟩
    split
    · exact hc
    · exact hc.put hS hcompile
  | answered answer => exact ⟨hc, hr, rfl, Nat.zero_le _⟩

/-- A request that nothing interrupts is answered in three turns, as by a single request. -/
theorem Request.turn_alone (S : Store γ) (cache : γ) (events : List CacheEvent) (text : String) :
    let one := Request.turn S ⟨cache, false, events⟩ ⟨text, .asked⟩
    let two := one.1.turn S one.2
    let three := two.1.turn S two.2
    three.1.answer? = some (S.compile cache text).1 ∧
      three.2 = ⟨(S.compile cache text).2.2, false, events ++ [(S.compile cache text).2.1]⟩ := by
  intro one two three
  cases hget : S.get cache text with
  | mk found after =>
    cases found with
    | some selector => simp [three, two, one, Request.turn, Request.answer?, Store.compile, hget]
    | none =>
      cases hcompile : Selector.compile text with
      | error error =>
        simp [three, two, one, Request.turn, Request.answer?, Store.compile, hget, hcompile]
      | ok selector =>
        simp [three, two, one, Request.turn, Request.answer?, Store.compile, hget, hcompile]

end

/-! ### All turns -/

namespace Session

variable {γ : Type} {S : Store γ}

/-- A session whose cache is sound and whose requests have found out what is right. -/
structure IsSound (S : Store γ) (x : Session γ) : Prop where
  cache : S.IsSound x.shared.cache
  requests : ∀ r ∈ x.requests, r.IsRight

/-- A session is sound before the first turn. -/
theorem isSound_start (hS : S.IsLeastRecent) (texts : List String) : IsSound S (start S texts) := by
  refine ⟨Store.isSound_empty hS, ?_⟩
  intro r hr
  obtain ⟨text, -, rfl⟩ := List.mem_map.mp hr
  exact ⟨by simp, by simp⟩

/-- All that a turn can do to a session: without a request that goes on, it leaves the requests and
the cache as they are; else it advances one request. -/
theorem IsSound.step_cases (hS : S.IsLeastRecent) {x : Session γ} (h : IsSound S x) (turn : Turn) :
    (∃ shared, x.step S turn = ⟨shared, x.requests⟩ ∧ shared.cache = x.shared.cache ∧
        ∀ i, turn = .request i → x.requests[i]? = none) ∨
      ∃ i r next shared, turn = .request i ∧ x.requests[i]? = some r ∧
        r.Advances S next shared ∧ x.step S turn = ⟨shared, x.requests.set i next⟩ := by
  cases turn with
  | poison => exact .inl ⟨_, rfl, rfl, fun i hi ↦ by contradiction⟩
  | request i =>
    cases hr : x.requests[i]? with
    | none =>
      refine .inl ⟨x.shared, by simp only [step, hr], rfl, ?_⟩
      intro j hj
      rw [← Turn.request.inj hj]
      exact hr
    | some r =>
      have hturn := Request.advances_turn hS h.cache (h.requests r (List.mem_of_getElem? hr))
      exact .inr ⟨i, r, _, _, rfl, hr, hturn, by simp only [step, hr]⟩

/-- A turn keeps a session sound. -/
theorem IsSound.step (hS : S.IsLeastRecent) {x : Session γ} (h : IsSound S x) (turn : Turn) :
    IsSound S (x.step S turn) := by
  rcases h.step_cases hS turn with
    ⟨shared, hstep, hcache, -⟩ | ⟨i, r, next, shared, -, -, hnext, hstep⟩
  · rw [hstep]
    exact ⟨hcache ▸ h.cache, h.requests⟩
  · rw [hstep]
    refine ⟨hnext.isSound, ?_⟩
    intro other hother
    rcases List.mem_or_eq_of_mem_set hother with hother | rfl
    · exact h.requests other hother
    · exact hnext.isRight

/-- A turn leaves the texts of the requests as they are. -/
theorem texts_step (hS : S.IsLeastRecent) {x : Session γ} (h : IsSound S x) (turn : Turn) :
    (x.step S turn).requests.map Request.text = x.requests.map Request.text := by
  rcases h.step_cases hS turn with ⟨shared, hstep, -⟩ | ⟨i, r, next, shared, -, hr, hnext, hstep⟩
  · rw [hstep]
  · have hi : (x.requests.map Request.text)[i]? = some r.text := by
      rw [List.getElem?_map, hr, Option.map_some]
    obtain ⟨hlt, hget⟩ := List.getElem?_eq_some_iff.mp hi
    rw [hstep, List.map_set, hnext.text, ← hget, List.set_getElem_self]

/-- The number of turns that the request at a position may still need. -/
def remaining (x : Session γ) (i : Nat) : Nat :=
  x.requests[i]?.elim 0 fun r ↦ r.phase.remaining

/-- A turn of a request brings it nearer to its answer, and no other turn takes it away from it. -/
theorem remaining_step (hS : S.IsLeastRecent) {x : Session γ} (h : IsSound S x) (turn : Turn)
    (i : Nat) :
    (x.step S turn).remaining i ≤ x.remaining i - if turn = .request i then 1 else 0 := by
  rcases h.step_cases hS turn with
    ⟨shared, hstep, -, hnone⟩ | ⟨j, r, next, shared, rfl, hr, hnext, hstep⟩
  · rw [hstep]
    split
    · next hturn =>
      rw [remaining, hnone i hturn]
      exact Nat.zero_le _
    · exact Nat.le_refl _
  · obtain ⟨hlt, -⟩ := List.getElem?_eq_some_iff.mp hr
    rw [hstep, remaining, remaining]
    split
    · next hturn =>
      obtain rfl := Turn.request.inj hturn
      rw [List.getElem?_set_self hlt, hr]
      exact hnext.remaining
    · next hother =>
      rw [List.getElem?_set_ne (fun heq ↦ hother (congrArg Turn.request heq))]
      exact Nat.le_refl _

private theorem foldl_step (hS : S.IsLeastRecent) {x : Session γ} (h : IsSound S x)
    (turns : List Turn) :
    IsSound S (turns.foldl (step S) x) ∧
      (turns.foldl (step S) x).requests.map Request.text = x.requests.map Request.text ∧
        ∀ i, (turns.foldl (step S) x).remaining i ≤ x.remaining i - turns.count (.request i) := by
  induction turns generalizing x with
  | nil => exact ⟨h, rfl, fun i ↦ Nat.le_refl _⟩
  | cons turn turns ih =>
    obtain ⟨hsound, htexts, hremaining⟩ := ih (h.step hS turn)
    refine ⟨hsound, htexts.trans (texts_step hS h turn), fun i ↦ ?_⟩
    have hfirst := remaining_step hS h turn i
    have hlater := hremaining i
    rw [List.foldl_cons, List.count_cons, beq_eq_decide]
    simp only [decide_eq_true_eq]
    omega

/-- In whatever order turns are taken, the session stays sound. -/
theorem isSound_run (hS : S.IsLeastRecent) (texts : List String) (turns : List Turn) :
    IsSound S (run S texts turns) := (foldl_step hS (isSound_start hS texts) turns).1

/-- The requests of a session are for its texts, in order. -/
theorem texts_run (hS : S.IsLeastRecent) (texts : List String) (turns : List Turn) :
    (run S texts turns).requests.map Request.text = texts := by
  rw [run, (foldl_step hS (isSound_start hS texts) turns).2.1, start, List.map_map]
  exact List.map_id _

/-- A request needs no more than three turns. -/
theorem remaining_run (hS : S.IsLeastRecent) (texts : List String) (turns : List Turn) (i : Nat) :
    (run S texts turns).remaining i ≤ 3 - turns.count (.request i) := by
  refine Nat.le_trans ((foldl_step hS (isSound_start hS texts) turns).2.2 i) ?_
  refine Nat.sub_le_sub_right ?_ _
  rw [remaining, start, List.getElem?_map]
  cases texts[i]? with
  | none => exact Nat.zero_le _
  | some text => exact Nat.le_refl _

/-- Whatever turns others take, a request that has been answered is answered with what its text
compiles to, and after three turns of its own it has been answered. -/
theorem answer?_run (hS : S.IsLeastRecent) {texts : List String} (turns : List Turn) {i : Nat}
    {text : String} (h : texts[i]? = some text) :
    (∀ answer, (run S texts turns).answer? i = some answer → answer = compile text) ∧
      (3 ≤ turns.count (.request i) → (run S texts turns).answer? i = some (compile text)) := by
  have hmap := congrArg (·[i]?) (texts_run hS texts turns)
  simp only [List.getElem?_map, h] at hmap
  obtain ⟨r, hr, rfl⟩ := Option.map_eq_some_iff.mp hmap
  have hright := (isSound_run hS texts turns).requests r (List.mem_of_getElem? hr)
  have hanswer : ∀ answer, (run S texts turns).answer? i = some answer →
      answer = compile r.text := by
    intro answer hanswer
    rw [answer?, hr, Option.bind_some, Request.answer?] at hanswer
    split at hanswer
    · next found hphase =>
      rw [← Option.some.inj hanswer]
      exact hright.answered hphase
    · contradiction
  refine ⟨hanswer, fun hthree ↦ ?_⟩
  have hremaining := remaining_run hS texts turns i
  rw [Nat.sub_eq_zero_of_le hthree, remaining, hr, Option.elim_some] at hremaining
  cases hphase : r.phase with
  | answered answer =>
    have hsome : (run S texts turns).answer? i = some answer := by
      rw [answer?, hr, Option.bind_some, Request.answer?, hphase]
    rw [hsome, hanswer answer hsome]
  | asked => simp [hphase, Phase.remaining] at hremaining
  | missed => simp [hphase, Phase.remaining] at hremaining
  | compiled selector => simp [hphase, Phase.remaining] at hremaining

end Session

end MarkupSelect.Selector
