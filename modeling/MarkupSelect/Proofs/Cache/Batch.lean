import Mathlib.Data.Set.List
import MarkupSelect.Proofs.Cache.Interleaved

/-!
# Batches whose queries take turns

The queries of a batch run at once, each with a request of its own among those that share the cache.
Their results are collected in the order of the batch, or up to an error, which may be that of any
query. In whatever order the requests take their turns, what is collected is what the queries give
one after another.
-/

namespace MarkupSelect

/-! ### Collecting results -/

section

variable {ω α β ε : Type} {workers : List ω} {tasks : List α} {R : ω → α → Prop}

/-- If workers come to nothing but the values of their tasks, these are what is collected. -/
theorem Collected.eq_map {result? : ω → Option β} {value : α → β}
    (hworkers : List.Forall₂ R workers tasks)
    (h : ∀ w a, R w a → ∀ b, result? w = some b → b = value a) {values : List β}
    (hcollected : Collected (workers.map result?) values) : values = tasks.map value := by
  induction hworkers generalizing values with
  | nil =>
    cases values with
    | nil => rfl
    | cons b values => contradiction
  | cons hw _ ih =>
    cases values with
    | nil => contradiction
    | cons b values =>
      obtain ⟨hb, hvalues⟩ := List.cons.inj hcollected
      rw [h _ _ hw b hb, ih hvalues, List.map_cons]

/-- If all workers have come to the values of their tasks, these can be collected. -/
theorem collected_map {result? : ω → Option β} {value : α → β}
    (hworkers : List.Forall₂ R workers tasks)
    (h : ∀ w ∈ workers, ∀ a, R w a → result? w = some (value a)) :
    Collected (workers.map result?) (tasks.map value) := by
  induction hworkers with
  | nil => rfl
  | cons hw _ ih =>
    have hhead := h _ List.mem_cons_self _ hw
    have htail := ih fun w hmem ↦ h w (List.mem_cons_of_mem _ hmem)
    rw [Collected] at htail ⊢
    rw [List.map_cons, hhead, htail, List.map_cons, List.map_cons]

/-- What a worker has come to is the value of some task. -/
theorem exists_mem_of_mem_map {result? : ω → Option β} {value : α → β}
    (hworkers : List.Forall₂ R workers tasks)
    (h : ∀ w a, R w a → ∀ b, result? w = some b → b = value a) {b : β}
    (hmem : some b ∈ workers.map result?) : ∃ a ∈ tasks, value a = b := by
  induction hworkers with
  | nil => contradiction
  | cons hw _ ih =>
    rcases List.mem_cons.mp hmem with hhead | htail
    · exact ⟨_, List.mem_cons_self, (h _ _ hw b hhead.symm).symm⟩
    · obtain ⟨a, ha, hvalue⟩ := ih htail
      exact ⟨a, List.mem_cons_of_mem _ ha, hvalue⟩

/-- When all results have come, the collection comes to an end. -/
theorem exists_gathered {results : List (Option (Except ε β))} {values : List (Except ε β)}
    (h : Collected results values) : ∃ outcome, Gathered results outcome := by
  by_cases herror : ∃ e, Except.error e ∈ values
  · obtain ⟨e, he⟩ := herror
    exact ⟨.error e, .error (h ▸ List.mem_map_of_mem he)⟩
  · have hok : ∀ v ∈ values, ∃ b, Except.ok b = v := by
      intro v hv
      cases v with
      | ok b => exact ⟨b, rfl⟩
      | error e => exact absurd ⟨e, hv⟩ herror
    obtain ⟨all, rfl⟩ : values ∈ Set.range (List.map Except.ok) := by
      rw [Set.range_list_map]
      exact hok
    exact ⟨.ok all, .ok h⟩

end

/-! ### Keyed queries -/

/-- What keyed queries are to come to: to results for all of them exactly if all their texts are
selectors, each under its key and in order, as they come to one after another; else to the error of
one of them. -/
structure IsKeyedOutcome (document : Bytes) (queries : List (String × String))
    (outcome : Except SelectorError (List (String × Matches))) : Prop where
  ok_iff : (∃ values, outcome = .ok values) ↔
    ∀ q ∈ queries, ∃ selector, Selector.compile q.2 = .ok selector
  queryKeyed {values : List (String × Matches)} : outcome = .ok values →
    queryKeyed document queries = .ok values
  keys {values : List (String × Matches)} : outcome = .ok values →
    values.map (·.1) = queries.map (·.1)
  results {values : List (String × Matches)} : outcome = .ok values →
    (values.map fun v ↦ .ok v.2) = queryEach document (queries.map (·.2))
  error {e : SelectorError} : outcome = .error e →
    ∃ q ∈ queries, Selector.compile q.2 = .error e

private def keyedResult (document : Bytes) (q : String × String) :
    Except SelectorError (String × Matches) := do
  return (q.1, (← Selector.compile q.2).query document .document)

private theorem keyedResult_eq_ok {document : Bytes} {q : String × String} {v : String × Matches}
    (h : keyedResult document q = .ok v) :
    ∃ selector, Selector.compile q.2 = .ok selector ∧
      v = (q.1, selector.query document .document) := by
  cases hcompile : Selector.compile q.2 with
  | error e => simp [keyedResult, hcompile, bind, Except.bind] at h
  | ok selector => simp_all [keyedResult, bind, Except.bind, pure, Except.pure]

private theorem mapM_eq_ok {α β ε : Type} {f : α → Except ε β} {xs : List α} {ys : List β}
    (h : ys.map .ok = xs.map f) : xs.mapM f = .ok ys := by
  induction xs generalizing ys with
  | nil =>
    obtain rfl := List.map_eq_nil_iff.mp h
    rfl
  | cons x xs ih =>
    cases ys with
    | nil => contradiction
    | cons y ys =>
      obtain ⟨hx, hxs⟩ := List.cons.inj h
      rw [List.mapM_cons, ← hx, ih hxs]
      rfl

private theorem isKeyedOutcome_ok {document : Bytes} {queries : List (String × String)}
    {values : List (String × Matches)}
    (h : values.map .ok = queries.map (keyedResult document)) :
    IsKeyedOutcome document queries (.ok values) := by
  have hpairs : List.Forall₂ (fun v q ↦ .ok v = keyedResult document q) values queries := by
    rw [← List.forall₂_map_right_iff, ← List.forall₂_map_left_iff, List.forall₂_eq_eq_eq]
    exact h
  constructor
  case ok_iff =>
    refine ⟨fun _ q hq ↦ ?_, fun _ ↦ ⟨values, rfl⟩⟩
    have hmem : keyedResult document q ∈ values.map .ok := h ▸ List.mem_map_of_mem hq
    obtain ⟨v, -, hv⟩ := List.mem_map.mp hmem
    obtain ⟨selector, hcompile, -⟩ := keyedResult_eq_ok hv.symm
    exact ⟨selector, hcompile⟩
  case queryKeyed =>
    intro same hsame
    obtain rfl := Except.ok.inj hsame
    exact mapM_eq_ok h
  case keys =>
    intro same hsame
    obtain rfl := Except.ok.inj hsame
    rw [← List.forall₂_eq_eq_eq, List.forall₂_map_left_iff, List.forall₂_map_right_iff]
    refine hpairs.imp fun v q hv ↦ ?_
    obtain ⟨selector, -, rfl⟩ := keyedResult_eq_ok hv.symm
    rfl
  case results =>
    intro same hsame
    obtain rfl := Except.ok.inj hsame
    rw [queryEach, ← List.forall₂_eq_eq_eq, List.map_map, List.forall₂_map_left_iff,
      List.forall₂_map_right_iff]
    refine hpairs.imp fun v q hv ↦ ?_
    obtain ⟨selector, hcompile, rfl⟩ := keyedResult_eq_ok hv.symm
    rw [Function.comp_apply, hcompile]
    rfl
  case error =>
    intro e he
    contradiction

private theorem isKeyedOutcome_error {document : Bytes} {queries : List (String × String)}
    {e : SelectorError} (h : ∃ q ∈ queries, keyedResult document q = .error e) :
    IsKeyedOutcome document queries (.error e) := by
  obtain ⟨q, hq, hresult⟩ := h
  have hcompile : Selector.compile q.2 = .error e := by
    cases hcompile : Selector.compile q.2 with
    | error found => simpa [keyedResult, hcompile, bind, Except.bind] using hresult
    | ok selector => simp [keyedResult, hcompile, bind, Except.bind, pure, Except.pure] at hresult
  constructor
  case ok_iff =>
    refine ⟨fun ⟨values, hvalues⟩ ↦ by contradiction, fun hall ↦ ?_⟩
    obtain ⟨selector, hselector⟩ := hall q hq
    rw [hcompile] at hselector
    contradiction
  case queryKeyed => exact fun hvalues ↦ by contradiction
  case keys => exact fun hvalues ↦ by contradiction
  case results => exact fun hvalues ↦ by contradiction
  case error =>
    intro found hfound
    obtain rfl := Except.error.inj hfound
    exact ⟨q, hq, hcompile⟩

/-! ### The queries of a batch -/

namespace Selector.Session

variable {γ : Type} {S : Store γ}

/-- The result of the query whose request has a position, once the request has been answered. -/
def result? (x : Session γ) (document : Bytes) (i : Nat) :
    Option (Except SelectorError Matches) :=
  (x.answer? i).map fun answer ↦ do return (← answer).query document .document

/-- The result of a query under a key. -/
def keyedResult? (x : Session γ) (document : Bytes) (w : String × Nat) :
    Option (Except SelectorError (String × Matches)) :=
  (x.answer? w.2).map fun answer ↦ do return (w.1, (← answer).query document .document)

/-- What is made of the answer to a request is made of what its text compiles to. -/
theorem map_answer?_run {α : Type} (hS : S.IsLeastRecent) {texts : List String}
    (turns : List Turn) {i : Nat} {text : String} (h : texts[i]? = some text)
    (f : Except SelectorError Selector → α) :
    (∀ a, ((run S texts turns).answer? i).map f = some a → a = f (compile text)) ∧
      (3 ≤ turns.count (.request i) →
        ((run S texts turns).answer? i).map f = some (f (compile text))) := by
  obtain ⟨hright, hthree⟩ := answer?_run hS turns h
  refine ⟨?_, fun hcount ↦ by rw [hthree hcount, Option.map_some]⟩
  intro a ha
  obtain ⟨answer, hanswer, rfl⟩ := Option.map_eq_some_iff.mp ha
  rw [hright answer hanswer]

/-- What is collected of the queries of a batch is what they give one after another, and once each
request has had three turns it can be collected. -/
theorem collected_run (hS : S.IsLeastRecent) {texts : List String} (turns : List Turn)
    (document : Bytes) {workers : List Nat} {selectors : List String}
    (h : List.Forall₂ (fun i text ↦ texts[i]? = some text) workers selectors) :
    (∀ results, Collected (workers.map ((run S texts turns).result? document)) results →
        results = queryEach document selectors) ∧
      ((∀ i ∈ workers, 3 ≤ turns.count (.request i)) →
        Collected (workers.map ((run S texts turns).result? document))
          (queryEach document selectors)) :=
  ⟨fun _ ↦ Collected.eq_map h fun _ _ hi ↦ (map_answer?_run hS turns hi _).1,
    fun hcount ↦ collected_map h fun i hmem _ hi ↦
      (map_answer?_run hS turns hi _).2 (hcount i hmem)⟩

/-- What is gathered of the keyed queries of a batch is what they are to come to, and once each
request has had three turns something can be gathered. -/
theorem gathered_run (hS : S.IsLeastRecent) {texts : List String} (turns : List Turn)
    (document : Bytes) {workers : List (String × Nat)} {queries : List (String × String)}
    (h : List.Forall₂ (fun w q ↦ w.1 = q.1 ∧ texts[w.2]? = some q.2) workers queries) :
    (∀ outcome, Gathered (workers.map ((run S texts turns).keyedResult? document)) outcome →
        IsKeyedOutcome document queries outcome) ∧
      ((∀ w ∈ workers, 3 ≤ turns.count (.request w.2)) →
        ∃ outcome, Gathered (workers.map ((run S texts turns).keyedResult? document)) outcome) := by
  have hright : ∀ (w : String × Nat) (q : String × String),
      w.1 = q.1 ∧ texts[w.2]? = some q.2 →
        (∀ result, (run S texts turns).keyedResult? document w = some result →
            result = keyedResult document q) ∧
          (3 ≤ turns.count (.request w.2) →
            (run S texts turns).keyedResult? document w = some (keyedResult document q)) := by
    intro w q hw
    rw [keyedResult?, keyedResult, hw.1]
    exact map_answer?_run hS turns hw.2 _
  constructor
  · intro outcome hgathered
    cases hgathered with
    | ok hcollected =>
      exact isKeyedOutcome_ok (Collected.eq_map h (fun w q hw ↦ (hright w q hw).1) hcollected)
    | error hmem =>
      exact isKeyedOutcome_error (exists_mem_of_mem_map h (fun w q hw ↦ (hright w q hw).1) hmem)
  · intro hcount
    exact exists_gathered (collected_map h fun w hmem q hw ↦ (hright w q hw).2 (hcount w hmem))

/-- The cache is not to be noticed, in whatever order requests take their turns. What is kept for a
text is what the text compiles to, and never more than 256 texts are kept; a request is answered
with what its text compiles to, after three turns of its own at most; and what the queries of a
batch come to is what they come to one after another, in the order of the batch. -/
theorem transparent_run (hS : S.IsLeastRecent) (texts : List String) (turns : List Turn) :
    ((∀ e ∈ S.entries (run S texts turns).shared.cache, compile e.1 = .ok e.2) ∧
        (S.entries (run S texts turns).shared.cache).length ≤ 256) ∧
      (∀ i text, texts[i]? = some text →
        (∀ answer, (run S texts turns).answer? i = some answer → answer = compile text) ∧
          (3 ≤ turns.count (.request i) →
            (run S texts turns).answer? i = some (compile text))) ∧
      (∀ document workers selectors,
        List.Forall₂ (fun i text ↦ texts[i]? = some text) workers selectors →
          (∀ results, Collected (workers.map ((run S texts turns).result? document)) results →
              results = queryEach document selectors) ∧
            ((∀ i ∈ workers, 3 ≤ turns.count (.request i)) →
              Collected (workers.map ((run S texts turns).result? document))
                (queryEach document selectors))) ∧
      ∀ document workers queries,
        List.Forall₂ (fun w q ↦ w.1 = q.1 ∧ texts[w.2]? = some q.2) workers queries →
          (∀ outcome,
            Gathered (workers.map ((run S texts turns).keyedResult? document)) outcome →
              IsKeyedOutcome document queries outcome) ∧
            ((∀ w ∈ workers, 3 ≤ turns.count (.request w.2)) →
              ∃ outcome,
                Gathered (workers.map ((run S texts turns).keyedResult? document)) outcome) := by
  have hsound := (isSound_run hS texts turns).cache
  refine ⟨⟨hsound.compiles, hsound.bounded⟩, ?_, ?_, ?_⟩
  · exact fun i text h ↦ answer?_run hS turns h
  · exact fun document workers selectors h ↦ collected_run hS turns document h
  · exact fun document workers queries h ↦ gathered_run hS turns document h

/-- Two requests for one text both miss it, one of them puts it in, and then the lock is poisoned;
between them is a request for a text that does not compile. -/
theorem transparent_run_crossed :
    let texts := ["p", "", "p"]
    let turns : List Turn :=
      [.request 0, .request 2, .request 1, .request 2, .request 0, .request 1, .request 0, .poison,
        .request 2, .request 1]
    let x := run Cache.asStore texts turns
    let document := Bytes.ofString "<p>x</p>"
    let queries := [("first", "p"), ("second", ""), ("third", "p")]
    let workers := [("first", 0), ("second", 1), ("third", 2)]
    Cache.asStore.IsLeastRecent ∧
      x.shared.events = [.compiled "p" 1, .compiled "p" 1, .invalid "" .empty] ∧
      (Cache.asStore.texts x.shared.cache = ["p"] ∧
        ∀ e ∈ Cache.asStore.entries x.shared.cache, compile e.1 = .ok e.2) ∧
      (texts[2]? = some "p" ∧ 3 ≤ turns.count (.request 2) ∧
        x.answer? 2 = some (compile "p")) ∧
      (List.Forall₂ (fun i text ↦ texts[i]? = some text) [2, 1] ["p", ""] ∧
        (∀ i ∈ [2, 1], 3 ≤ turns.count (.request i)) ∧
          Collected ([2, 1].map (x.result? document)) (queryEach document ["p", ""])) ∧
      List.Forall₂ (fun w q ↦ w.1 = q.1 ∧ texts[w.2]? = some q.2) workers queries ∧
        (∀ w ∈ workers, 3 ≤ turns.count (.request w.2)) ∧
          ∃ outcome, Gathered (workers.map (x.keyedResult? document)) outcome ∧
            IsKeyedOutcome document queries outcome := by
  intro texts turns x document queries workers
  have hS := Cache.isLeastRecent_asStore
  have hevents : x.shared.events = [.compiled "p" 1, .compiled "p" 1, .invalid "" .empty] := by
    decide
  have hkept : Cache.asStore.texts x.shared.cache = ["p"] := by decide
  have hthree : 3 ≤ turns.count (.request 2) := by decide
  have hplaces : List.Forall₂ (fun i text ↦ texts[i]? = some text) [2, 1] ["p", ""] :=
    .cons rfl (.cons rfl .nil)
  have hturns : ∀ i ∈ [2, 1], 3 ≤ turns.count (.request i) := by decide
  have hkeyed : List.Forall₂ (fun w q ↦ w.1 = q.1 ∧ texts[w.2]? = some q.2) workers queries :=
    .cons ⟨rfl, rfl⟩ (.cons ⟨rfl, rfl⟩ (.cons ⟨rfl, rfl⟩ .nil))
  have hall : ∀ w ∈ workers, 3 ≤ turns.count (.request w.2) := by decide
  have hrun := transparent_run hS texts turns
  -- The session is to stay a name: unfolding it would run it.
  rw [show run Cache.asStore texts turns = x from rfl] at hrun
  obtain ⟨⟨hcompiles, -⟩, hanswers, heach, hmap⟩ := hrun
  obtain ⟨houtcome, hexists⟩ := hmap document workers queries hkeyed
  obtain ⟨outcome, hgathered⟩ := hexists hall
  exact ⟨hS, hevents, ⟨hkept, hcompiles⟩, ⟨rfl, hthree, (hanswers 2 "p" rfl).2 hthree⟩,
    ⟨hplaces, hturns, (heach document [2, 1] _ hplaces).2 hturns⟩, hkeyed, hall, outcome,
    hgathered, houtcome outcome hgathered⟩

end Selector.Session

end MarkupSelect
