import GlyphScript.Main
import GlyphScript.Node.Collect
import GlyphScript.Node.Edit
import GlyphScript.Node.Fields
import GlyphScript.Proofs.Macro.Expansion
import GlyphScript.Proofs.Macro.Fixpoint
import GlyphScript.Proofs.Macro.Limits
import GlyphScript.Proofs.Parsing.Acceptance
import GlyphScript.Proofs.Parsing.Earliest
import GlyphScript.Proofs.Parsing.Written
import GlyphScript.Proofs.Printing.RoundTrip
import GlyphScript.Proofs.Token.Spelling
import GlyphScript.Proofs.Validity
import GlyphScript.Proofs.Layout.Compilation
import GlyphScript.Proofs.Macro.Statementwise
import GlyphScript.Proofs.Safety.Compilation
import GlyphScript.Proofs.Cancellation.Compilation
import GlyphScript.Proofs.Spans.Reading
import GlyphScript.Proofs.Listing.Programs
import GlyphScript.Proofs.Inline.Charges
import GlyphScript.Proofs.Token.Tiling
import GlyphScript.Proofs.Token.Junction
import GlyphScript.Proofs.Token.Munch
import GlyphScript.Proofs.Fidelity.Reprinting
import GlyphScript.Proofs.Stability.Compilation
import GlyphScript.Proofs.Macro.Supply
import GlyphScript.Proofs.Macro.Filling
import GlyphScript.Proofs.Macro.Reversible
import GlyphScript.Proofs.Macro.Nested
import GlyphScript.Proofs.Order.Compilation
import GlyphScript.Proofs.Macro.Inverse
import GlyphScript.Proofs.Macro.Scopes
import GlyphScript.Proofs.Text.EditDistance
import GlyphScript.Proofs.Macro.Injection
import GlyphScript.Proofs.Parsing.Registration
import GlyphScript.Proofs.Rereading.Depth
