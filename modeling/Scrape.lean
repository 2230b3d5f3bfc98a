import Scrape.Collector.Threads
import Scrape.Proofs.Ledger.History
import Scrape.Metrics.Exposition
import Scrape.Utf8.Lemmas
import Scrape.Proofs.Collector.Admission
import Scrape.Proofs.Collector.Moves
import Scrape.Proofs.Collector.Ownership
import Scrape.Proofs.Collector.Overtaking
import Scrape.Proofs.Fingerprint.Untimed
import Scrape.Proofs.Ledger.Moves
import Scrape.Proofs.Ledger.Serial
import Scrape.Proofs.Ledger.Interleaving
import Scrape.Proofs.Json.Members
import Scrape.Proofs.LabelPolicy
import Scrape.Proofs.Collector.Series
import Scrape.Collector.Pipeline
import Scrape.Proofs.Delivery
import Scrape.Proofs.Collector.Pipeline
import Scrape.Proofs.Collector.Reluctance
import Scrape.Proofs.LabelPolicy.Precedence
import Scrape.Proofs.Labels.OrderedMap
import Scrape.Proofs.Collector.Accounts
import Scrape.Proofs.Fingerprint.Order
import Scrape.Proofs.Collector.Forgetting
import Scrape.Proofs.Json.Compact
import Scrape.Proofs.Payload
import Scrape.Proofs.Fnv
import Scrape.Proofs.Fingerprint.Reference
import Scrape.Proofs.Collector.Neighbours
import Scrape.Proofs.LabelPolicy.Override
import Scrape.Proofs.Labels.AllOrNothing
import Scrape.Proofs.Instant.Saturation
import Scrape.Proofs.Collector.Reservation
import Scrape.Proofs.Ledger.Exports
import Scrape.Proofs.Payload.Extent
