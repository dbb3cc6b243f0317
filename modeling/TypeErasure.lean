import TypeErasure.Main
import TypeErasure.Overlay.Script
import TypeErasure.Session.Schedule
import TypeErasure.Syntax.Rule
import TypeErasure.Proofs.Selector.Acceptance
import TypeErasure.Proofs.Selector.Chains
import TypeErasure.Proofs.Text.Splice
import TypeErasure.Proofs.Syntax.Lexical
import TypeErasure.Proofs.Syntax.Rooted
import TypeErasure.Proofs.Frontend.Lowering
import TypeErasure.Proofs.Erasure.Constructs
import TypeErasure.Proofs.Erasure.Renaming
import TypeErasure.Proofs.Overlay.Replacement
import TypeErasure.Proofs.Overlay.Succession
import TypeErasure.Proofs.Session.History
import TypeErasure.Proofs.Session.Outcome
import TypeErasure.Proofs.Session.LastAction
import TypeErasure.Proofs.CommandLine.CaretView
import TypeErasure.Proofs.Syntax.Safety
import TypeErasure.Proofs.Syntax.Copying
import TypeErasure.Proofs.Rename.Composition
import TypeErasure.Proofs.Session.Threads
import TypeErasure.Proofs.Erasure.Ascription
import TypeErasure.Proofs.Syntax.NormalForm
import TypeErasure.Proofs.Syntax.Fitting
import TypeErasure.Proofs.Syntax.LexicalOrder
import TypeErasure.Proofs.Syntax.Visiting
import TypeErasure.Proofs.Selector.Renaming
import TypeErasure.Proofs.Selector.Fault
import TypeErasure.Proofs.Text.Locating
import TypeErasure.Proofs.Text.Lines
import TypeErasure.Proofs.Text.Conflict
import TypeErasure.Proofs.Text.Listing
import TypeErasure.Proofs.Rename.Edits
import TypeErasure.Proofs.Erasure.Range
import TypeErasure.Proofs.Text.Modified
import TypeErasure.Proofs.Selector.TopLevel
import TypeErasure.Proofs.Syntax.Outline
import TypeErasure.Proofs.Erasure.Cover
import TypeErasure.Proofs.Syntax.Appending
import TypeErasure.Proofs.Erasure.Asking
import TypeErasure.Proofs.Frontend.Extensions
