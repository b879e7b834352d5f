import Pf2eParser.Text.Search
import Pf2eParser.Text.Whitespace
import Pf2eParser.Text.Case
import Pf2eParser.Text.Decimal
import Pf2eParser.Text.Bytes
import Pf2eParser.Text.Delimited
import Pf2eParser.Text.Utf8
import Pf2eParser.Codec
import Pf2eParser.Domain
import Pf2eParser.Externals
import Pf2eParser.Parser
import Pf2eParser.Parser.Blocks
import Pf2eParser.Parser.Fields
import Pf2eParser.Parser.Confidence
import Pf2eParser.Parser.Explicit
import Pf2eParser.Parser.SourceText
import Pf2eParser.Parser.Layout
import Pf2eParser.Parser.References
import Pf2eParser.Parser.Brackets
import Pf2eParser.Interaction
import Pf2eParser.Kernel
import Pf2eParser.Dispatch
import Pf2eParser.WorkLoop
import Pf2eParser.InputScope
import Pf2eParser.AdmitScope
import Pf2eParser.Completion
import Pf2eParser.Polling
import Pf2eParser.Renewal
import Pf2eParser.Health
import Pf2eParser.BookAdapter
import Pf2eParser.BookAdapter.Separator
import Pf2eParser.BookAdapter.HeadingBlocks
import Pf2eParser.BookAdapter.Reparse
import Pf2eParser.BookAdapter.Rendered
import Pf2eParser.BookAdapter.Paragraphs
import Pf2eParser.BookAdapter.Clauses
import Pf2eParser.BookAdapter.Conservation
import Pf2eParser.BookAdapter.Headings
import Pf2eParser.BookAdapter.Sections
import Pf2eParser.BookAdapter.Feats
import Pf2eParser.BookAdapter.DualFeats
import Pf2eParser.BookAdapter.TraitTags
import Pf2eParser.BookAdapter.Glossary
import Pf2eParser.BookAdapter.PageBreaks
import Pf2eParser.BookAdapter.FeatLines
import Pf2eParser.BookAdapter.ActionLines
import Pf2eParser.BookAdapter.Pieces
import Pf2eParser.BookAdapter.MarkerWords
import Pf2eParser.BookAdapter.Markers
import Pf2eParser.ReadCommitted
import Pf2eParser.ReadCommitted.Alone
import Pf2eParser.ReadCommitted.Connections
import Pf2eParser.ReadCommitted.Order
import Pf2eParser.Repository
import Pf2eParser.Repository.Invariant
import Pf2eParser.Repository.Agreement
import Pf2eParser.Repository.DigestRace
import Pf2eParser.Repository.Alone
import Pf2eParser.Repository.Refinement
import Pf2eParser.Repository.Fragments
import Pf2eParser.Repository.Linearization
import Pf2eParser.Retry
import Pf2eParser.Interaction.Handler
import Pf2eParser.Service.Requests
import Pf2eParser.Service.Responses
import Pf2eParser.Service.KernelClient
import Pf2eParser.Service.Startup
import Pf2eParser.Service.Process
import Pf2eParser.Service.Histories
import Pf2eParser.Service.Contract
import Pf2eParser.Service.Start
import Pf2eParser.Service.Guarantees
import Pf2eParser.Service.Delivery
import Pf2eParser.Service.Lifecycle
import Pf2eParser.Service.Expiry
import Pf2eParser.Service.Fleet
import Pf2eParser.Service.Probe
import Pf2eParser.Service.Pod
