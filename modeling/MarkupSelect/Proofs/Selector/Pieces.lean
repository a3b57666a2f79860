import Mathlib.Data.List.Forall2
import MarkupSelect.Proofs.Selector.Compiled
import MarkupSelect.Proofs.Selector.Heading
import MarkupSelect.Proofs.Selector.Joined

/-!
# The pieces of a selector

The commas that end alternatives cut a selector into pieces, one for each alternative. By itself a
piece stands for its alternative, but the ends of the whole text are looked at and those of a piece
are not: behind a comma a piece may begin with a `>` or with a backslash, and in front of one it may
end with what is reserved and escaped. By itself such a piece is no selector.
-/

namespace MarkupSelect

namespace Builder

variable {b d : Builder} {ls : List Lexeme} {position : Nat}
  {alternatives init : List Alternative} {steps : List Step}

/-- The alternatives in front of the steps of a builder are those that it has. -/
theorem Leaves.alternatives_eq (h : b.Leaves init steps) : b.alternatives = init := by
  obtain ⟨c, hc, hend⟩ := h
  rw [← alternatives_of_settle hc, ← alternatives_endStep, hend, Lead.builder]

/-- The lexemes in front of a comma are read as an alternative of their own, and those behind it
with that alternative in front of them. -/
structure SplitsAt (b : Builder) (position : Nat) (alternatives : List Alternative)
    (steps : List Step) (before after : List Lexeme) : Prop where
  before : ∃ d, b.feedAll position before = .ok d ∧ d.Leaves b.alternatives steps
  after : ∃ position', (Lead.builder ⟨b.alternatives ++ [steps], [], .descendant⟩).alternativesFrom
    position' after = .ok alternatives

/-- One alternative is read, up to the end of the text or to a comma. -/
theorem exists_alternative (h : b.alternativesFrom position ls = .ok alternatives) :
    ∃ steps, steps ≠ [] ∧ (alternatives = b.alternatives ++ [steps] ∨
      ∃ before after, ls = before ++ ⟨.punctuation, ','⟩ :: after ∧
        b.SplitsAt position alternatives steps before after) := by
  induction ls generalizing b position with
  | nil =>
    obtain ⟨init, steps, hleaves, hsteps, hlast⟩ := leaves_of_finish (b := b) h
    rw [← hleaves.alternatives_eq] at hlast
    exact ⟨steps, hsteps, .inl hlast⟩
  | cons l ls ih =>
    rw [alternativesFrom, feedAll, bind_assoc] at h
    obtain ⟨c, hc, hrest⟩ := exists_of_bind h
    rcases alternatives_of_feed hc with hsame | ⟨rfl, d, hd, hend⟩
    · obtain ⟨steps, hsteps, hread⟩ := ih hrest
      rw [hsame] at hread
      refine ⟨steps, hsteps, hread.imp_right ?_⟩
      rintro ⟨before, after, rfl, ⟨e, he, hleaves⟩, hafter⟩
      rw [hsame] at hleaves hafter
      refine ⟨l :: before, after, rfl, ⟨e, ?_, hleaves⟩, hafter⟩
      rw [feedAll, hc]
      exact he
    · obtain ⟨steps, hsteps, hleaves, rfl⟩ := leaves_of_endAlternative hd hend
      rw [alternatives_of_settle hd] at hleaves hrest
      exact ⟨steps, hsteps, .inr ⟨[], ls, rfl, ⟨b, rfl, hleaves⟩, position + 1, hrest⟩⟩

end Builder

namespace Selector

open Builder

variable {piece text cs : List Char} {alternatives : List Alternative} {c : Char}

/-! ### Pieces -/

/-- A text is cut at commas into pieces that stand for one alternative each. -/
theorem exists_pieces (h : alternativesOf text = .ok alternatives) :
    ∃ pieces, [','].intercalate pieces = text ∧
      List.Forall₂ (fun piece a ↦ alternativesOf piece = .ok [a]) pieces alternatives := by
  induction alternatives generalizing text with
  | nil => exact absurd rfl (ne_nil_of_alternativesOf h)
  | cons a alternatives ih =>
    rw [alternativesOf_eq] at h
    obtain ⟨steps, hsteps, hlast | ⟨before, after, hsplit, ⟨d, hd, hleaves⟩, _, hafter⟩⟩ :=
      exists_alternative h
    · -- There is no comma.
      rw [hlast] at h ⊢
      exact ⟨[text], List.intercalate_singleton, .cons h .nil⟩
    · obtain ⟨piece, rest, rfl, rfl, rfl⟩ := Lexeme.exists_split_of_ofText hsplit
      obtain ⟨own, hown, hne, hsame⟩ := exists_of_behind_comma hafter
      obtain ⟨rfl, rfl⟩ : steps = a ∧ own = alternatives := List.cons.inj hsame.symm
      obtain ⟨pieces, hpieces, hread⟩ := ih hown
      have hpiece : alternativesOf piece = .ok [steps] := by
        rw [alternativesOf_eq, alternativesFrom, hd]
        exact hleaves.finish hsteps
      refine ⟨piece :: pieces, ?_, .cons hpiece hread⟩
      have hpieces_ne : pieces ≠ [] := by
        rintro rfl
        exact hne (List.forall₂_nil_left_iff.mp hread)
      rw [List.intercalate_cons_of_ne_nil hpieces_ne, hpieces]
      simp

/-- A text without a comma stands for one alternative. -/
theorem exists_singleton_of_notMem_comma (hcomma : ',' ∉ text)
    (h : alternativesOf text = .ok alternatives) : ∃ a, alternatives = [a] := by
  obtain ⟨pieces, rfl, hread⟩ := exists_pieces h
  cases hread with
  | nil => exact absurd rfl (ne_nil_of_alternativesOf h)
  | cons hpiece hrest =>
    cases hrest with
    | nil => exact ⟨_, rfl⟩
    | cons hpiece' hrest' => simp [List.intercalate_cons_cons] at hcomma

/-! ### Ends of a piece -/

/-- A text that does not begin with what begins no selector by itself. -/
def BeginsAlone (text : List Char) : Prop :=
  ∀ first ∈ (Text.trim text).head?, first ≠ '>' ∧ first ≠ '\\'

/-- A text that does not end with what ends no selector. -/
def EndsAlone (text : List Char) : Prop :=
  ∀ last ∈ (Text.trim text).getLast?, CharKind.isReserved last = true → last = ']'

/-- What a piece of a selector that stands for some alternatives is by itself: it compiles to them
if it has the ends of a selector, and otherwise it does not compile, for what it begins or ends
with. The first step of all is a child exactly if the piece begins with a combinator. -/
structure StandsFor (piece : List Char) (alternatives : List Alternative) : Prop where
  alone : BeginsAlone piece → EndsAlone piece →
    compile (String.ofList piece) = .ok ⟨String.ofList (Text.trim piece), alternatives⟩
  leading : EndsAlone piece → ∀ first ∈ (Text.trim piece).head?, first = '>' ∨ first = '\\' →
    compile (String.ofList piece) = .error (.leadingPunctuation first)
  trailing : ∀ last ∈ (Text.trim piece).getLast?, CharKind.isReserved last = true → last ≠ ']' →
    compile (String.ofList piece) = .error (.trailingPunctuation last)
  heading : ∃ step steps rest, alternatives = (step :: steps) :: rest ∧
    (step.combinator = .child ↔ (Text.trim piece).head? = some '>')

private theorem opens_of_alternativesOf (h : alternativesOf (c :: cs) = .ok alternatives)
    (hblank : Text.isBlank c = false) (hchild : c ≠ '>') (hback : c ≠ '\\') : Opens c := by
  refine ⟨hblank, fun hreserved ↦ ?_⟩
  have hfirst : (empty.between 0 ⟨.punctuation, c⟩ >>= fun b ↦
      b.alternativesFrom 1 (Lexeme.ofText cs)) = .ok alternatives := by
    rw [alternativesOf, Lexeme.ofText_cons hback, CharKind.ofChar_of_isReserved hreserved, feedAll,
      bind_assoc] at h
    exact h
  cases role ⟨.punctuation, c⟩ with
  | begins _ _ hopens =>
    rcases hopens with hliteral | ⟨-, hmem⟩
    · contradiction
    · exact hmem
  | space hspace => contradiction
  | child h => exact absurd (congrArg Lexeme.char h) hchild
  | comma h =>
    rw [h] at hfirst
    contradiction
  | stray h =>
    rw [h] at hfirst
    contradiction

private theorem heading_ofText (hblank : Text.isBlank c = false) (cs : List Char) :
    Lead.heading .descendant (Lexeme.ofText (c :: cs)) = .child ↔ c = '>' := by
  obtain ⟨l, ls, hls, hl⟩ := Lexeme.exists_ofText_cons c cs
  rw [hls, Lead.heading]
  rcases hl with rfl | ⟨rfl, hliteral⟩
  · have hspace : CharKind.ofChar c ≠ .space := by
      unfold CharKind.ofChar
      rw [hblank]
      split <;> simp
    rw [if_neg hspace]
    by_cases hchild : c = '>'
    · subst hchild
      exact iff_of_true rfl rfl
    · rw [if_neg fun h ↦ hchild (congrArg Lexeme.char h)]
      exact iff_of_false (by decide) hchild
  · have hchild : l ≠ ⟨.punctuation, '>'⟩ := by
      rintro rfl
      contradiction
    rw [if_neg (by simp [hliteral]), if_neg hchild]
    exact iff_of_false (by decide) (by decide)

private theorem heading_of_alternativesOf (h : alternativesOf (c :: cs) = .ok alternatives)
    (hblank : Text.isBlank c = false) :
    ∃ step steps rest, alternatives = (step :: steps) :: rest ∧
      (step.combinator = .child ↔ c = '>') := by
  obtain ⟨a, rest, rfl⟩ := List.exists_cons_of_ne_nil (ne_nil_of_alternativesOf h)
  have hsound := isSound_of_alternativesOf h a List.mem_cons_self
  obtain ⟨step, steps, rfl⟩ := List.exists_cons_of_ne_nil hsound.ne_nil
  obtain ⟨b, hb⟩ := exists_headed_of_alternativesOf h
  refine ⟨step, steps, rest, rfl, ?_⟩
  cases b with
  | nil => contradiction
  | cons s b =>
    rw [(List.cons.inj hb).1]
    exact heading_ofText hblank cs

private theorem exists_core_of_alternativesOf (h : alternativesOf piece = .ok alternatives) :
    Text.IsTrimmed (Text.trim piece) ∧
      ∃ before after, (∀ c ∈ before, Text.isBlank c = true) ∧
        (∀ c ∈ after, Text.isBlank c = true) ∧ piece = before ++ Text.trim piece ++ after ∧
          alternativesOf (Text.trim piece ++ after) = .ok alternatives := by
  obtain ⟨before, after, hbefore, hafter, hpiece⟩ := Text.exists_trim piece
  have hread : alternativesOf (Text.trim piece ++ after) = .ok alternatives := by
    rw [hpiece, List.append_assoc] at h
    exact (alternativesOf_blanks_append_iff hbefore).mp h
  refine ⟨Text.isTrimmed_trim fun hempty ↦ ?_, before, after, hbefore, hafter, hpiece, hread⟩
  rw [hempty] at hread
  have hnothing := (alternativesOf_append_blanks_iff (by simp) hafter).mp hread
  contradiction

/-- What a text is read as, it stands for. -/
theorem standsFor_of_alternativesOf (h : alternativesOf piece = .ok alternatives) :
    StandsFor piece alternatives := by
  obtain ⟨htrimmed, before, after, hbefore, hafter, hpiece, hread⟩ :=
    exists_core_of_alternativesOf h
  obtain ⟨first, hfirst, hblank⟩ := htrimmed.first
  obtain ⟨last, hlast, hblank'⟩ := htrimmed.last
  obtain ⟨core, hcore⟩ := List.head?_eq_some_iff.mp hfirst
  rw [hcore, List.cons_append] at hread
  have hsource : (String.ofList piece).toList = piece := String.toList_ofList
  constructor
  · intro hbegins hends
    have halone := hbegins first hfirst
    have hedges : HasEnds (Text.trim piece) :=
      ⟨⟨first, hfirst, opens_of_alternativesOf hread hblank halone.1 halone.2⟩,
        ⟨last, hlast, hblank', hends last hlast⟩⟩
    have hsame : alternativesOf (Text.trim piece) = .ok alternatives := by
      rw [← alternativesOf_append_blanks_iff hedges.getLast?_ne hafter, hcore]
      exact hread
    exact compile_of_hasEnds hedges hbefore hafter hsame (hsource.trans hpiece)
  · intro hends c hc hodd
    rw [compile, hsource, edgeError?_of_head? hc _ _ hlast (hends last hlast)]
    · rcases hodd with rfl | rfl <;> rfl
    · rcases hodd with rfl | rfl <;> decide
  · intro c hc hreserved hne
    rw [compile, hsource, edgeError?_of_getLast? hc hreserved hne]
  · rw [hfirst]
    simp only [Option.some.injEq]
    exact heading_of_alternativesOf hread hblank

/-! ### Selectors -/

/-- What a selector compiles to is what its text is read as. -/
theorem alternativesOf_of_compile {source : String} {s : Selector} (h : compile source = .ok s) :
    alternativesOf source.toList = .ok s.alternatives := by
  obtain ⟨before, core, after, hcore, hbefore, hafter, hsource, hread⟩ := exists_core_of_compile h
  rw [hsource, List.append_assoc, alternativesOf_blanks_append_iff hbefore,
    alternativesOf_append_blanks_iff hcore.getLast?_ne hafter]
  exact hread

/-- A selector ends with what ends one. -/
theorem endsAlone_of_compile {source : String} {s : Selector} (h : compile source = .ok s) :
    EndsAlone source.toList := by
  obtain ⟨before, core, after, hcore, hbefore, hafter, hsource, -⟩ := exists_core_of_compile h
  rw [EndsAlone, hsource, hcore.isTrimmed.trim_append hbefore hafter]
  intro last hlast
  obtain ⟨c, hc, -, hcloses⟩ := hcore.last
  rw [← Option.some.inj (hc.symm.trans hlast)]
  exact hcloses

/-- Behind a selector and a comma the text is read by itself. -/
theorem exists_rest_of_compile {a b : String} {s sa : Selector}
    (h : compile (a ++ "," ++ b) = .ok s) (ha : compile a = .ok sa) :
    ∃ rest, s.alternatives = sa.alternatives ++ rest ∧ alternativesOf b.toList = .ok rest := by
  obtain ⟨before, core, after, hcore, hbefore, hafter, hsource, hread⟩ := exists_core_of_compile ha
  have hlead := leads_comma hcore hafter (List.forall_mem_nil _) hread
  have htext := alternativesOf_of_compile h
  have hsplit : (a ++ "," ++ b).toList =
      before ++ ((core ++ (after ++ [','])) ++ b.toList) := by
    simp [hsource]
  rw [hsplit, alternativesOf_blanks_append_iff hbefore, alternativesOf,
    Lexeme.ofText_append (by simp), feedAll_append, hlead] at htext
  obtain ⟨rest, hrest, -, hsame⟩ := exists_of_behind_comma htext
  exact ⟨rest, hsame, hrest⟩

/-- A compiled selector is put together from pieces, one for each alternative. Each stands for its
alternative by itself, but for its ends. What follows a selector and a comma stands for the
alternatives that follow those of the selector, which is one if there is no comma in it. -/
theorem pieces_of_compile {text : String} {s : Selector} (h : compile text = .ok s) :
    (∃ pieces, [','].intercalate pieces = text.toList ∧
      List.Forall₂ (fun piece a ↦ StandsFor piece [a]) pieces s.alternatives) ∧
    ∀ a b sa, text = a ++ "," ++ b → compile a = .ok sa →
      ∃ rest, s.alternatives = sa.alternatives ++ rest ∧ StandsFor b.toList rest ∧
        EndsAlone b.toList ∧ (',' ∉ b.toList → ∃ last, rest = [last]) := by
  constructor
  · obtain ⟨pieces, hpieces, hread⟩ := exists_pieces (alternativesOf_of_compile h)
    exact ⟨pieces, hpieces, hread.imp fun _ _ ↦ standsFor_of_alternativesOf⟩
  · rintro a b sa rfl ha
    obtain ⟨rest, hsame, hrest⟩ := exists_rest_of_compile h ha
    refine ⟨rest, hsame, standsFor_of_alternativesOf hrest, ?_,
      fun hcomma ↦ exists_singleton_of_notMem_comma hcomma hrest⟩
    intro last hlast
    apply endsAlone_of_compile h
    rw [Option.mem_def, Text.getLast?_trim] at hlast ⊢
    simp only [String.toList_append, List.reverse_append, List.find?_append, hlast,
      Option.some_or]

/-- A selector with a comma in a bracket, one that is escaped, and one behind which a piece begins
with a combinator. -/
theorem pieces_of_compile_combinator :
    let a : Alternative := [⟨some "a,", .descendant, [⟨"x", .equals, ","⟩]⟩]
    let b : Alternative := [⟨some "b", .child, []⟩]
    let s : Selector := ⟨"A\\,[x=','] , > b", [a, b]⟩
    compile ("A\\,[x=','] " ++ "," ++ " > b") = .ok s ∧
      (∃ pieces, [','].intercalate pieces = "A\\,[x=','] , > b".toList ∧
        List.Forall₂ (fun piece a ↦ StandsFor piece [a]) pieces [a, b]) ∧
      StandsFor " > b".toList [b] := by
  intro a b s
  have ha : compile "A\\,[x=','] " = .ok ⟨"A\\,[x=',']", [a]⟩ := by rfl
  have h : compile ("A\\,[x=','] " ++ "," ++ " > b") = .ok s := by rfl
  obtain ⟨hpieces, hrest⟩ := pieces_of_compile h
  refine ⟨h, hpieces, ?_⟩
  obtain ⟨rest, hsame, hstands, -⟩ := hrest _ _ _ rfl ha
  obtain rfl : [b] = rest := (List.cons.inj hsame).2
  exact hstands

/-- Behind a comma a piece begins with a `>`, with which no selector begins. -/
theorem compile_behind_comma_child :
    compile "a" = .ok ⟨"a", [[⟨some "a", .descendant, []⟩]]⟩ ∧
      compile ("a" ++ "," ++ ">b") =
        .ok ⟨"a,>b", [[⟨some "a", .descendant, []⟩], [⟨some "b", .child, []⟩]]⟩ ∧
      ',' ∉ ">b".toList ∧ compile ">b" = .error (.leadingPunctuation '>') :=
  ⟨rfl, rfl, by decide, rfl⟩

end Selector

end MarkupSelect
