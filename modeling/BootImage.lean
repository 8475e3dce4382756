import BootImage.Proofs.DataArea
import BootImage.Proofs.Decoding.EffectiveAddress
import BootImage.Proofs.Decoding.SegmentRegisters
import BootImage.Proofs.EntryStub
import BootImage.Proofs.Execution.Shifts
import BootImage.Proofs.FieldOffsets
import BootImage.Proofs.LabelInsertion
import BootImage.Proofs.LabelTable
import BootImage.Proofs.LinearSearch
import BootImage.Proofs.Listing
import BootImage.Proofs.Maximality
import BootImage.Proofs.Modes
import BootImage.Proofs.Monotonicity
import BootImage.Proofs.Origins
import BootImage.Proofs.Reading
import BootImage.Proofs.Renaming
import BootImage.Proofs.Sizing
import BootImage.Proofs.SpareRegisters
import BootImage.Proofs.Stranding
import BootImage.Proofs.Truncation
import BootImage.Proofs.Writing.Agreement
import BootImage.Session
