import Munch.Grammar.Draft
import Munch.Settings.Document
import Munch.Source.Script
import Munch.Source.Utf8
import Munch.Tokenizer.Drain
import Munch.Proofs.Delivery
import Munch.Proofs.LongestMatch
import Munch.Proofs.ReadAhead
import Munch.Proofs.Resume
import Munch.Proofs.Lexeme
import Munch.Proofs.Retry
import Munch.Proofs.Reading
import Munch.Proofs.Wiring
import Munch.Proofs.MaximalMunch
import Munch.Proofs.BlockComment
import Munch.Proofs.WellFormed
import Munch.Proofs.Streaming
import Munch.Proofs.Transcript
import Munch.Proofs.Restart
import Munch.Proofs.Foreign
import Munch.Proofs.Places
import Munch.Proofs.EndOfInput
import Munch.Proofs.Extension
import Munch.Proofs.Appended
import Munch.Proofs.Budgets
import Munch.Proofs.CommentText
import Munch.Proofs.Catalogue
import Munch.Proofs.Kinds
import Munch.Proofs.Ledger
import Munch.Proofs.Interrupted
import Munch.Proofs.Guarded
import Munch.Proofs.Faultless
import Munch.Proofs.Sources
import Munch.Proofs.Sequences
import Munch.Proofs.Resynchrony
import Munch.Proofs.NormalForm
import Munch.Proofs.Conflict
import Munch.Proofs.Interchange
import Munch.Proofs.Unread
import Munch.Proofs.Failure
import Munch.Proofs.Lookups
import Munch.Proofs.Representation
import Munch.Proofs.Progress
import Munch.Proofs.SettingsDocument
