import MarkupSelect.Proofs.Attribute.Pieces
import MarkupSelect.Proofs.Cache.Batch
import MarkupSelect.Proofs.Condition.Implied
import MarkupSelect.Proofs.Condition.LetterCase
import MarkupSelect.Proofs.Element.Children
import MarkupSelect.Proofs.Extract.Independent
import MarkupSelect.Proofs.Extract.Shape
import MarkupSelect.Proofs.Extract.Submitted
import MarkupSelect.Proofs.Extract.Table
import MarkupSelect.Proofs.Forest.Query
import MarkupSelect.Proofs.Forest.Stripped
import MarkupSelect.Proofs.Locate.Identifier
import MarkupSelect.Proofs.Matches.Standing
import MarkupSelect.Proofs.Query.Agreement
import MarkupSelect.Proofs.Query.Child
import MarkupSelect.Proofs.Query.Joined
import MarkupSelect.Proofs.Query.LetterCase
import MarkupSelect.Proofs.Query.Moved
import MarkupSelect.Proofs.Query.Reordered
import MarkupSelect.Proofs.Query.Scope
import MarkupSelect.Proofs.Selector.Escaped
import MarkupSelect.Proofs.Selector.Pieces
