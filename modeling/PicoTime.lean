import PicoTime.Session
import PicoTime.Timestamp.Digits
import PicoTime.Proofs.Grammar
import PicoTime.Proofs.ReadBack
import PicoTime.Proofs.RunningTotal
import PicoTime.Proofs.DecodedState
import PicoTime.Proofs.Fields
import PicoTime.Proofs.Reread
import PicoTime.Proofs.Window
import PicoTime.Proofs.Routes
import PicoTime.Proofs.SharedClock
import PicoTime.Proofs.Widening
import PicoTime.Proofs.Elapsed
import PicoTime.Proofs.Carries
import PicoTime.Proofs.Normalization
import PicoTime.Proofs.Splicing
import PicoTime.Proofs.Grid
import PicoTime.Proofs.Truncation
import PicoTime.Proofs.SecondsOrder
import PicoTime.Proofs.WholeSeconds
import PicoTime.Proofs.Nanoseconds
import PicoTime.Proofs.Boundary
