import Abacus.Amount
import Abacus.Text.Quoted
import Abacus.Text.Layout
import Abacus.Refusal
import Abacus.Counter
import Abacus.Handle
import Abacus.Placement
import Abacus.Event
import Abacus.Script
import Abacus.Registry
import Abacus.Action
import Abacus.Host
import Abacus.Distortion
import Abacus.Movable
import Abacus.Pool
import Abacus.Session.Basic
import Abacus.Session.Load
import Abacus.Session.Step
import Abacus.Session.Run
import Abacus.Proofs.Sound
import Abacus.Proofs.Share
import Abacus.Proofs.Secure
import Abacus.Proofs.Hosting
import Abacus.Proofs.Distorted
import Abacus.Proofs.Honest
import Abacus.Proofs.Chore
import Abacus.Proofs.Atomicity
import Abacus.Proofs.Course
import Abacus.Proofs.Custody
import Abacus.Proofs.Discipline
import Abacus.Proofs.Ledger
import Abacus.Proofs.Interleaving
import Abacus.Proofs.Trace
import Abacus.Proofs.Drawing
import Abacus.Proofs.Sequence
import Abacus.Proofs.Conservation
import Abacus.Proofs.Tenancy
import Abacus.Proofs.Transparency
import Abacus.Proofs.Independence
import Abacus.Proofs.Laws
import Abacus.Proofs.Replay
import Abacus.Proofs.Exact
import Abacus.Proofs.Rest
import Abacus.Proofs.DeadHandles
import Abacus.Proofs.Frame
import Abacus.Proofs.Ownership
import Abacus.Proofs.Rollback
import Abacus.Proofs.Carriage
import Abacus.Proofs.Alternation
import Abacus.Proofs.Reversal
import Abacus.Proofs.Crowd
import Abacus.Proofs.Uniform
import Abacus.Proofs.Reserve
import Abacus.Proofs.Narration
import Abacus.Proofs.Wording
