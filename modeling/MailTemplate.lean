import MailTemplate.Compile.Sample
import MailTemplate.Main
import MailTemplate.Proofs.Compile.Chain
import MailTemplate.Proofs.Compile.CleanOutput
import MailTemplate.Proofs.Compile.Confined
import MailTemplate.Proofs.Compile.Discovery
import MailTemplate.Proofs.Compile.Independence
import MailTemplate.Proofs.Compile.Expansion
import MailTemplate.Proofs.Compile.Fallback
import MailTemplate.Proofs.Compile.Lineage
import MailTemplate.Proofs.Compile.Nesting
import MailTemplate.Proofs.Compile.Ordinary
import MailTemplate.Proofs.Compile.Origins
import MailTemplate.Proofs.Compile.OutputTree
import MailTemplate.Proofs.Guard.Once
import MailTemplate.Proofs.Guard.Session
import MailTemplate.Proofs.Markup.BrokenOff
import MailTemplate.Proofs.Markup.Canonical
import MailTemplate.Proofs.Markup.EmailLayout
import MailTemplate.Proofs.Markup.Numbering
import MailTemplate.Proofs.Markup.Preorder
import MailTemplate.Proofs.Markup.Reading
import MailTemplate.Proofs.Markup.Reparse
import MailTemplate.Proofs.Markup.Shape
import MailTemplate.Proofs.Markup.Tables
import MailTemplate.Proofs.Markup.WordsKept
import MailTemplate.Proofs.Render.SpanAccount
import MailTemplate.Proofs.Style.Precedence
import MailTemplate.Proofs.Text.Cut
import MailTemplate.Proofs.Markup.Operations
import MailTemplate.Proofs.Markup.Visits
import MailTemplate.Proofs.Style.EscapedParts
import MailTemplate.Proofs.Style.EscapedStyles
import MailTemplate.Proofs.Style.Reads
import MailTemplate.Proofs.Style.Restyled
import MailTemplate.Proofs.Style.Shorthands
import MailTemplate.Proofs.Markup.Failures
import MailTemplate.Proofs.Style.Meaning
import MailTemplate.Proofs.Style.Faults
import MailTemplate.Proofs.Style.ByteTurns
import MailTemplate.Proofs.Style.QuotedMarks
import MailTemplate.Proofs.Style.Rewritten
import MailTemplate.Proofs.Compile.Targets
import MailTemplate.Proofs.Style.Untouched
import MailTemplate.Proofs.Style.SplitPoints
