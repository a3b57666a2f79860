import MarkupSelect.Query.Basic
import MarkupSelect.Selector.Cache

/-!
# Many queries at once

Queries do not depend on one another, so a batch of them gives the results of each by itself, in the
order of the batch. What they share is the cache of compiled selectors. Specified in `SPEC_FULL.md`
§14, and §5 for what may run at once.
-/

namespace MarkupSelect

/-! ### Batches -/

/-- The results of some selectors in one document, each with an error of its own; §14,
`query_parallel`. -/
def queryEach (document : Bytes) (selectors : List String) : List (Except SelectorError Matches) :=
  selectors.map fun text ↦ do return (← Selector.compile text).query document .document

/-- The results of one selector in some documents; §14, `query_documents`. -/
def Selector.queryDocuments (s : Selector) (documents : List Bytes) : List Matches :=
  documents.map fun document ↦ s.query document .document

/-- The results of some selectors in one document, each under a key of its own; the first text that
is no selector is an error of them all. -/
def queryKeyed (document : Bytes) (queries : List (String × String)) :
    Except SelectorError (List (String × Matches)) :=
  queries.mapM fun q ↦ do return (q.1, (← Selector.compile q.2).query document .document)

/-!
### Collected results

What is promised of the results of queries that run at once.
-/

/-- What is promised of collected results: each of them has come, and the values stand in the order
of the results. -/
def Collected {α : Type} (results : List (Option α)) (values : List α) : Prop :=
  results = values.map some

/-- What is promised of results that are collected up to an error: without an error all values are
collected; an error that has come may end the collection, whatever the other results are. -/
inductive Gathered {ε α : Type} : List (Option (Except ε α)) → Except ε (List α) → Prop where
  | ok {results : List (Option (Except ε α))} {values : List α} :
    Collected results (values.map .ok) → Gathered results (.ok values)
  | error {results : List (Option (Except ε α))} {e : ε} :
    some (.error e) ∈ results → Gathered results (.error e)

/-!
### Requests to a shared cache

Requests share one cache behind a lock. Each of them looks its text up, compiles it if it is not
found, and puts the selector in; the lock is held within the look-up and within the store, and not
between them, so that other requests may take their turns there.

A request that is broken off while it holds the lock leaves the lock poisoned. From then on the
cache is passed by (§11.1): nothing is looked up and nothing is put in.
-/

namespace Selector

/-- How far a request has come: its text is to be looked up; it has not been found and is to be
compiled; it has been compiled, and the selector is to be put in; the request has been answered. -/
inductive Phase where
  | asked
  | missed
  | compiled (selector : Selector)
  | answered (answer : Except SelectorError Selector)

/-- A request for the selector of a text as given, and how far it has come. -/
structure Request where
  text : String
  phase : Phase

/-- What all requests share: the cache, which only the holder of the lock touches, whether a holder
of the lock was broken off, and what the requests have met with, in order. -/
structure Shared (γ : Type) where
  cache : γ
  poisoned : Bool
  events : List CacheEvent

/-- Some requests and what they share. -/
structure Session (γ : Type) where
  shared : Shared γ
  requests : List Request

/-- What can happen next: the request at a position goes on, or the holder of the lock is broken
off. -/
inductive Turn where
  | request (position : Nat)
  | poison
deriving DecidableEq

/-- The answer to a request that has been answered. -/
def Request.answer? (r : Request) : Option (Except SelectorError Selector) :=
  match r.phase with
  | .answered answer => some answer
  | _ => none

/-- One turn of a request: the look-up, the compilation or the store. -/
def Request.turn {γ : Type} (S : Store γ) (shared : Shared γ) (r : Request) :
    Request × Shared γ :=
  match r.phase with
  | .asked =>
    if shared.poisoned then ({ r with phase := .missed }, shared)
    else
      match S.get shared.cache r.text with
      | (some selector, cache) =>
        ({ r with phase := .answered (.ok selector) },
          { shared with cache, events := shared.events ++ [.hit r.text] })
      | (none, cache) => ({ r with phase := .missed }, { shared with cache })
  | .missed =>
    match compile r.text with
    | .error error =>
      ({ r with phase := .answered (.error error) },
        { shared with events := shared.events ++ [.invalid r.text error] })
    | .ok selector =>
      ({ r with phase := .compiled selector },
        { shared with
          events := shared.events ++ [.compiled r.text selector.alternatives.length] })
  | .compiled selector =>
    ({ r with phase := .answered (.ok selector) },
      if shared.poisoned then shared
      else { shared with cache := S.put shared.cache r.text selector })
  | .answered _ => (r, shared)

namespace Session

variable {γ : Type}

/-- Requests for some texts, none of which has had a turn. -/
def start (S : Store γ) (texts : List String) : Session γ :=
  ⟨⟨S.empty, false, []⟩, texts.map fun text ↦ ⟨text, .asked⟩⟩

/-- What a turn makes of a session; at a position without a request nothing happens. -/
def step (S : Store γ) (x : Session γ) : Turn → Session γ
  | .request i =>
    match x.requests[i]? with
    | none => x
    | some r => ⟨(r.turn S x.shared).2, x.requests.set i (r.turn S x.shared).1⟩
  | .poison => { x with shared := { x.shared with poisoned := true } }

/-- Requests for some texts after some turns. -/
def run (S : Store γ) (texts : List String) (turns : List Turn) : Session γ :=
  turns.foldl (step S) (start S texts)

/-- The answer to the request at a position. -/
def answer? (x : Session γ) (i : Nat) : Option (Except SelectorError Selector) :=
  x.requests[i]?.bind Request.answer?

end Session

end Selector

end MarkupSelect
