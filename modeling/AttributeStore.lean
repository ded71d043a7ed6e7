import AttributeStore.Store.Operation
import AttributeStore.Value.WellFormed
import AttributeStore.Proofs.Listing
import AttributeStore.Proofs.Commit
import AttributeStore.Proofs.Steps
import AttributeStore.Proofs.Slots
import AttributeStore.Proofs.Identity
import AttributeStore.Proofs.Replay
import AttributeStore.Proofs.Lock
import AttributeStore.Proofs.Tenure
import AttributeStore.Proofs.Equality
import AttributeStore.Proofs.Import
import AttributeStore.Proofs.JsonOutput
import AttributeStore.Proofs.TextRoundTrip
import AttributeStore.Proofs.Backlog
import AttributeStore.Proofs.Delivery
import AttributeStore.Proofs.WriteOrder
import AttributeStore.Proofs.Naming
import AttributeStore.Proofs.Refusal
import AttributeStore.Proofs.Permanence
import AttributeStore.Proofs.Provenance
import AttributeStore.Proofs.Construction
import AttributeStore.Proofs.Reading
import AttributeStore.Proofs.FloatingReads
import AttributeStore.Proofs.TextAgreement
import AttributeStore.Proofs.SetEquality
import AttributeStore.Proofs.ListPresentation
import AttributeStore.Proofs.Rendering
import AttributeStore.Proofs.ShortestTexts
import AttributeStore.Proofs.Merging
