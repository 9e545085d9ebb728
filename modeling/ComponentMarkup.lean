import ComponentMarkup.Expr.Equality
import ComponentMarkup.Proofs.Element.Contents
import ComponentMarkup.Proofs.Element.ReadingBack
import ComponentMarkup.Proofs.Element.Spacing
import ComponentMarkup.Proofs.Element.Splitting
import ComponentMarkup.Proofs.Eval.Extremes
import ComponentMarkup.Proofs.Eval.Numbering
import ComponentMarkup.Proofs.Eval.Scoping
import ComponentMarkup.Proofs.Eval.TextMethods
import ComponentMarkup.Proofs.Expr.Tiling
import ComponentMarkup.Proofs.Expr.Unescaping
import ComponentMarkup.Proofs.Markup.Faults
import ComponentMarkup.Proofs.Markup.Productions
import ComponentMarkup.Proofs.Position.LineIndex
import ComponentMarkup.Proofs.Position.Lookup
import ComponentMarkup.Proofs.Settings.RoundTrip
import ComponentMarkup.Proofs.Template.Accounting
import ComponentMarkup.Proofs.Template.BracketKinds
import ComponentMarkup.Proofs.Template.Faults
import ComponentMarkup.Proofs.Template.LineTokens
import ComponentMarkup.Proofs.Template.Merging
import ComponentMarkup.Proofs.Template.Sources
import ComponentMarkup.Proofs.Template.Surveys
import ComponentMarkup.Proofs.Value.Keys
