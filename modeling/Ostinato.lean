import Ostinato.Main
import Ostinato.Part.Execution
import Ostinato.Sequence.Command
import Ostinato.Proofs.Pattern.EmptyGroups
import Ostinato.Proofs.Part.Delivery
import Ostinato.Proofs.Pattern.Offsets
import Ostinato.Proofs.Pattern.Order
import Ostinato.Proofs.Pattern.Writes
import Ostinato.Proofs.Sequence.Rebuild
import Ostinato.Proofs.Sequence.Edits
import Ostinato.Proofs.Sequence.Layout
import Ostinato.Proofs.Part.Granularity
import Ostinato.Proofs.Sequence.LiveEdits
import Ostinato.Proofs.Sequence.Passes
import Ostinato.Proofs.Player.Notes
import Ostinato.Proofs.Part.Lateness
import Ostinato.Proofs.Part.Counted
import Ostinato.Proofs.Sequence.Containment
import Ostinato.Proofs.Part.Interleaving
import Ostinato.Proofs.Part.Independence
import Ostinato.Proofs.Pattern.Balance
import Ostinato.Proofs.Sequence.Silencing
import Ostinato.Proofs.Pattern.Spelling
import Ostinato.Proofs.Pattern.History
import Ostinato.Proofs.Part.Registrations
import Ostinato.Proofs.Sequence.Disposal
import Ostinato.Proofs.Part.Thinning
import Ostinato.Proofs.Part.Deviations
import Ostinato.Proofs.Pattern.InPlace
import Ostinato.Proofs.Pattern.Locality
import Ostinato.Proofs.Pattern.Traversal
import Ostinato.Proofs.Pattern.Rounding
import Ostinato.Proofs.Time.RoundTrip
import Ostinato.Proofs.Sequence.OnGrid
import Ostinato.Proofs.Binary64.Numerals
import Ostinato.Proofs.Time.Texts
import Ostinato.Proofs.Sequence.Faults
import Ostinato.Proofs.Player.Faults
import Ostinato.Proofs.Pattern.Revisions
import Ostinato.Proofs.Part.Turns
import Ostinato.Proofs.Part.Skipping
import Ostinato.Proofs.Part.LapCount
