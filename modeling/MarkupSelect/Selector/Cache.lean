import MarkupSelect.Selector.Compile
import MarkupSelect.Text.Quoted

/-!
# Compiled selectors at hand

A cache of compiled selectors, keyed by their texts as given. A selector that cannot be compiled is
not kept, and of those that can the least recently used gives way. `SPEC_FULL.md` asks for the cache
in §10 and for its capacity in §11.3; what it reports is the logging of §11.2.
-/

namespace MarkupSelect.Selector

/-!
### The list of entries

The cache as the list of its entries, ordered from the most to the least recently used.
-/

/-- Compiled selectors by their texts, the most recently used first. -/
structure Cache where
  entries : List (String × Selector)
deriving DecidableEq, Repr

/-- What a request to a cache met with: the selector was at hand, it was compiled and kept, or the
text is no selector; §11.2. -/
inductive CacheEvent where
  | hit (text : String)
  | compiled (text : String) (alternatives : Nat)
  | invalid (text : String) (error : SelectorError)
deriving DecidableEq, Repr

/-- The wording of an event. -/
def CacheEvent.message : CacheEvent → String
  | hit text => "cache hit for " ++ Text.quoted text
  | compiled text alternatives =>
    "compiled " ++ Text.quoted text ++ " into " ++ toString alternatives ++ " alternative(s)"
  | invalid text error => "invalid selector " ++ Text.quoted text ++ ": " ++ error.message

namespace Cache

/-- The number of selectors that are kept; §11.3, `SELECTOR_CACHE_CAPACITY`. -/
def capacity : Nat := 256

/-- The cache that keeps nothing yet. -/
def empty : Cache := ⟨[]⟩

/-- The selector kept for a text, with the cache in which it is the most recently used. -/
def lookup? (c : Cache) (text : String) : Option (Selector × Cache) :=
  (c.entries.find? (·.1 == text)).map fun e ↦ (e.2, ⟨e :: c.entries.filter (·.1 != text)⟩)

/-- The cache with a selector added as the most recently used. -/
def store (c : Cache) (text : String) (selector : Selector) : Cache :=
  ⟨((text, selector) :: c.entries.filter (·.1 != text)).take capacity⟩

/-- The answer to a request: the result of compiling the text, what the cache met with, and the
cache afterwards. -/
def compile (c : Cache) (text : String) : Except SelectorError Selector × CacheEvent × Cache :=
  match c.lookup? text with
  | some (selector, c) => (.ok selector, .hit text, c)
  | none =>
    match Selector.compile text with
    | .error error => (.error error, .invalid text error, c)
    | .ok selector =>
      (.ok selector, .compiled text selector.alternatives.length, c.store text selector)

/-- A store never keeps more than the capacity. -/
theorem length_entries_store_le (c : Cache) (text : String) (selector : Selector) :
    (c.store text selector).entries.length ≤ capacity := by
  exact List.length_take_le capacity _

end Cache

/-!
### Stores

What is asked of a cache is asked of any store with a look-up and a put, whatever keeps the entries.
The list of entries is one.
-/

/-- The operations of something that keeps selectors by their texts: what keeps nothing yet, a
look-up with the store that it leaves, and putting a selector in. `entries` tells what is kept, the
most recently used first. -/
structure Store (γ : Type) where
  empty : γ
  get : γ → String → Option Selector × γ
  put : γ → String → Selector → γ
  entries : γ → List (String × Selector)

namespace Store

variable {γ : Type}

/-- The texts for which selectors are kept, the most recently used first. -/
def texts (S : Store γ) (c : γ) : List String := (S.entries c).map (·.1)

/-- The answer to a request that nothing interrupts: the result of compiling the text, what the
request met with, and the store afterwards. -/
def compile (S : Store γ) (c : γ) (text : String) :
    Except SelectorError Selector × CacheEvent × γ :=
  match S.get c text with
  | (some selector, c) => (.ok selector, .hit text, c)
  | (none, c) =>
    match Selector.compile text with
    | .error error => (.error error, .invalid text error, c)
    | .ok selector =>
      (.ok selector, .compiled text selector.alternatives.length, S.put c text selector)

end Store

/-- The list of entries as a store. -/
def Cache.asStore : Store Cache where
  empty := empty
  get c text :=
    match c.lookup? text with
    | some (selector, c) => (some selector, c)
    | none => (none, c)
  put := store
  entries := entries

end MarkupSelect.Selector
