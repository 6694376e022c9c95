import TeachLang.Main
import TeachLang.Decimal.Exact
import TeachLang.Proofs.Strict
import TeachLang.Proofs.Members
import TeachLang.Proofs.Emission
import TeachLang.Proofs.Isolation
import TeachLang.Proofs.Fuel
import TeachLang.Proofs.Erasure
import TeachLang.Proofs.Visits
import TeachLang.Proofs.Termination
import TeachLang.Proofs.Failures
import TeachLang.Proofs.Quotients
import TeachLang.Proofs.Levels
import TeachLang.Proofs.Arena
import TeachLang.Proofs.LayoutReading
import TeachLang.Proofs.LayoutChecking
import TeachLang.Proofs.LayoutRunning
import TeachLang.Proofs.Viable
import TeachLang.Proofs.Assignment
import TeachLang.Proofs.Cuts
import TeachLang.Proofs.Hulls
import TeachLang.Proofs.Carets
import TeachLang.Proofs.Residue
import TeachLang.Proofs.Unrolling
import TeachLang.Proofs.Literals
import TeachLang.Proofs.Offsets
import TeachLang.Proofs.Equality
import TeachLang.Proofs.Comparisons
import TeachLang.Proofs.WellLaid
import TeachLang.Proofs.Unmentioned
import TeachLang.Proofs.Arguments
import TeachLang.Proofs.Progress
import TeachLang.Proofs.Powers
import TeachLang.Proofs.Edits
