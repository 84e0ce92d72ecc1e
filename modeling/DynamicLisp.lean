import DynamicLisp.Eval.Scoped
import DynamicLisp.Main
import DynamicLisp.Proofs.Eval.Discipline
import DynamicLisp.Proofs.Value.Parts
import DynamicLisp.Proofs.Eval.Respect
import DynamicLisp.Proofs.Eval.Coincidence
import DynamicLisp.Proofs.Eval.Holding
import DynamicLisp.Proofs.Reading.Forms
import DynamicLisp.Proofs.Session.Life
import DynamicLisp.Proofs.Session.Frames
import DynamicLisp.Proofs.Session.Numbers
import DynamicLisp.Proofs.Session.Visibility
import DynamicLisp.Proofs.Reading.Grammar
import DynamicLisp.Proofs.Reading.Refusals
import DynamicLisp.Proofs.Reading.Scan
import DynamicLisp.Proofs.Text.Written
import DynamicLisp.Proofs.Value.Displayed
import DynamicLisp.Proofs.Session.Displays
import DynamicLisp.Proofs.Eval.Refusal
import DynamicLisp.Proofs.Eval.Halting
import DynamicLisp.Proofs.Session.Endings
import DynamicLisp.Proofs.Reading.Atoms
import DynamicLisp.Proofs.Reading.Tokens
import DynamicLisp.Proofs.Reading.RoundTrip
import DynamicLisp.Proofs.Environment.Renaming
import DynamicLisp.Proofs.Eval.Application
import DynamicLisp.Proofs.Eval.Shrinking
import DynamicLisp.Proofs.Session.Arithmetic
import DynamicLisp.Proofs.Session.Identities
import DynamicLisp.Proofs.Session.Termination
import DynamicLisp.Proofs.Session.Interleaving
import DynamicLisp.Proofs.Session.Composition
import DynamicLisp.Proofs.Session.Sequencing
import DynamicLisp.Proofs.Eval.Ledger
import DynamicLisp.Proofs.Eval.Recording
import DynamicLisp.Proofs.Eval.Time
import DynamicLisp.Proofs.Session.History
import DynamicLisp.Proofs.Session.Sameness
import DynamicLisp.Proofs.Session.FirstForm
import DynamicLisp.Proofs.Command.Delivery
import DynamicLisp.Proofs.Command.Streams
import DynamicLisp.Proofs.Eval.Guards
import DynamicLisp.Proofs.Value.Congruence
import DynamicLisp.Proofs.Reading.Unambiguity
import DynamicLisp.Proofs.Environment.Mapping
import DynamicLisp.Proofs.Eval.Relabelling
import DynamicLisp.Proofs.Value.Copies
import DynamicLisp.Proofs.Eval.Copies
import DynamicLisp.Proofs.Session.Copies
import DynamicLisp.Proofs.Eval.Exactness
import DynamicLisp.Proofs.Reading.Scanner
import DynamicLisp.Proofs.Eval.Totals
import DynamicLisp.Proofs.Eval.Lists
import DynamicLisp.Proofs.Environment.Names
import DynamicLisp.Proofs.Environment.Scoping
import DynamicLisp.Proofs.Session.Length
