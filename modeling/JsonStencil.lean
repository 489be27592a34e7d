import JsonStencil.Diagnostic
import JsonStencil.Outer.PatternReader
import JsonStencil.Outer.Settings
import JsonStencil.Proofs.Cache.Recency
import JsonStencil.Proofs.Cache.Transparency
import JsonStencil.Proofs.Diagnostic.Carets
import JsonStencil.Proofs.Expr.Identity
import JsonStencil.Proofs.Expr.Variables
import JsonStencil.Proofs.Grammar.Depth
import JsonStencil.Proofs.Grammar.Excerpts
import JsonStencil.Proofs.Grammar.Height
import JsonStencil.Proofs.Grammar.Termination
import JsonStencil.Proofs.Numeric.Rounding
import JsonStencil.Proofs.Template.Embedding
import JsonStencil.Proofs.Template.Escaping
import JsonStencil.Proofs.Template.Faults
import JsonStencil.Proofs.Template.Hygiene
import JsonStencil.Proofs.Template.Nesting
import JsonStencil.Proofs.Template.Precedence
import JsonStencil.Proofs.Template.RoundTrip
import JsonStencil.Proofs.Template.Unclosed
import JsonStencil.Proofs.Token.Printing
import JsonStencil.Proofs.Token.Tiling
import JsonStencil.Proofs.Value.Collections
import JsonStencil.Proofs.Value.Documents
import JsonStencil.Proofs.Value.Slices
import JsonStencil.Proofs.Value.Splitting
