import TypedRecords.Main
import TypedRecords.Record.Builder
import TypedRecords.Proofs.Assoc
import TypedRecords.Proofs.Avro.Container
import TypedRecords.Proofs.Avro.Document
import TypedRecords.Proofs.Canonical.Document
import TypedRecords.Proofs.Codec
import TypedRecords.Proofs.Record.Conformance
import TypedRecords.Proofs.Record.Datum
import TypedRecords.Proofs.Schema.Document
import TypedRecords.Proofs.Schema.RoundTrip
import TypedRecords.Proofs.Record.Typing
import TypedRecords.Proofs.Schema.Lookup
import TypedRecords.Proofs.Record.Places
import TypedRecords.Proofs.Schema.Labels
import TypedRecords.Proofs.Canonical.StrictOrder
import TypedRecords.Proofs.Record.Unbound
import TypedRecords.Proofs.Record.LastWrite
import TypedRecords.Proofs.Schema.DescriptorJson
import TypedRecords.Proofs.Schema.Description
import TypedRecords.Proofs.Schema.Rebuilding
import TypedRecords.Proofs.Canonical.Rewording
import TypedRecords.Proofs.Schema.Recovery
import TypedRecords.Proofs.Schema.LogicalOrder
import TypedRecords.Proofs.Schema.ListedOrder
import TypedRecords.Proofs.Decimal.Shortest
import TypedRecords.Proofs.Decimal.Text
import TypedRecords.Proofs.Json
import TypedRecords.Proofs.Canonical.Shown
import TypedRecords.Proofs.Schema.ContentNames
import TypedRecords.Proofs.Schema.EntryCalls
import TypedRecords.Proofs.Schema.Adding
import TypedRecords.Proofs.Schema.Placing
import TypedRecords.Proofs.InstantText
import TypedRecords.Proofs.Record.JsonView
import TypedRecords.Proofs.Record.JsonKeys
import TypedRecords.Proofs.Record.Inference
import TypedRecords.Proofs.Record.Routes
import TypedRecords.Proofs.Schema.EntrySetters
import TypedRecords.Proofs.Naming
