import ThreadedCode.Main
import ThreadedCode.Stock
import ThreadedCode.Shared
import ThreadedCode.Machine.Lifetime
import ThreadedCode.Proofs.Visits
import ThreadedCode.Proofs.Order
import ThreadedCode.Proofs.Lookups
import ThreadedCode.Proofs.Interpretation
import ThreadedCode.Proofs.Boxes
import ThreadedCode.Proofs.Extents
import ThreadedCode.Proofs.Refusals
import ThreadedCode.Proofs.Renewal
import ThreadedCode.Proofs.Room
import ThreadedCode.Proofs.Primitives
import ThreadedCode.Proofs.Meanings
import ThreadedCode.Proofs.Lines
import ThreadedCode.Proofs.Operands
import ThreadedCode.Proofs.Sessions
import ThreadedCode.Proofs.Atomicity
import ThreadedCode.Proofs.Listeners
import ThreadedCode.Proofs.Termination
import ThreadedCode.Proofs.Panics
import ThreadedCode.Proofs.Levels
import ThreadedCode.Proofs.Balance
import ThreadedCode.Proofs.Rollback
import ThreadedCode.Proofs.Histories
import ThreadedCode.Proofs.Strategies
import ThreadedCode.Proofs.Registration
import ThreadedCode.Proofs.Drafts
import ThreadedCode.Proofs.Regions
import ThreadedCode.Proofs.Slots
import ThreadedCode.Proofs.Readers
import ThreadedCode.Proofs.Warnings
import ThreadedCode.Proofs.Buckets
