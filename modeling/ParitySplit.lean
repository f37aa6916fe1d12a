import ParitySplit.Main
import ParitySplit.Proofs.Exclusion
import ParitySplit.Proofs.Output.Session
import ParitySplit.Proofs.Table.ReadBack
import ParitySplit.Proofs.Text.Utf8
import ParitySplit.Proofs.Intake.Header
import ParitySplit.Proofs.RoundTrip
import ParitySplit.Proofs.Intake.Contribution
import ParitySplit.Proofs.Run.Plan
import ParitySplit.Proofs.Run.Contents
import ParitySplit.Proofs.Refusal
import ParitySplit.Proofs.Run.Again
import ParitySplit.Proofs.Run.Calls
import ParitySplit.Proofs.Intake.Growing
import ParitySplit.Proofs.Respelling
import ParitySplit.Proofs.Path.Blanks
import ParitySplit.Proofs.Store.Directories
import ParitySplit.Proofs.Store.Listing
import ParitySplit.Proofs.Store.Rejoin
import ParitySplit.Proofs.Copies
import ParitySplit.Proofs.Run.Reshard
import ParitySplit.Proofs.Run.Protocol
import ParitySplit.Proofs.Run.Accounts
import ParitySplit.Proofs.Output.Frame
import ParitySplit.Proofs.Run.Frame
import ParitySplit.Proofs.Store.Composition
import ParitySplit.Proofs.Run.Unnamed
import ParitySplit.Proofs.Output.Spellings
import ParitySplit.Proofs.Candidates
import ParitySplit.Proofs.Run.Spellings
import ParitySplit.Proofs.Intake.Cut
import ParitySplit.Proofs.Output.Headers
import ParitySplit.Proofs.Run.Headers
import ParitySplit.Proofs.Intake.Turns
import ParitySplit.Proofs.Intake.Text
import ParitySplit.Proofs.Intake.Located
import ParitySplit.Proofs.Intake.Split
import ParitySplit.Proofs.Run.Reported
import ParitySplit.Proofs.Intake.Reports
import ParitySplit.Proofs.Run.Widths
