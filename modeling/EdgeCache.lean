import EdgeCache.Http.HopByHop
import EdgeCache.Http.MediaType
import EdgeCache.Main
import EdgeCache.Settings.Document
import EdgeCache.Store.Calls
import EdgeCache.Variant.Key
import EdgeCache.Proofs.Runs
import EdgeCache.Proofs.Store.Moves
import EdgeCache.Proofs.Store.Locks
import EdgeCache.Proofs.Store.Contents
import EdgeCache.Proofs.Exchange.Copies
import EdgeCache.Proofs.Exchange.Course
import EdgeCache.Proofs.Exchange.Order
import EdgeCache.Proofs.Exchange.Provenance
import EdgeCache.Proofs.Exchange.Progress
import EdgeCache.Proofs.Exchange.Termination
import EdgeCache.Proofs.Exchange.Coalescing
import EdgeCache.Proofs.Exchange.Hits
import EdgeCache.Proofs.Store.SingleFlight
import EdgeCache.Proofs.Store.Freshness
import EdgeCache.Proofs.Exchange.Entries
import EdgeCache.Proofs.Variant.Keys
import EdgeCache.Proofs.Variant.Queries
import EdgeCache.Proofs.Variant.Selection
import EdgeCache.Proofs.Exchange.Rivals
import EdgeCache.Proofs.Exchange.Transparency
import EdgeCache.Proofs.Origin.Splitting
import EdgeCache.Proofs.Exchange.Liveness
import EdgeCache.Proofs.Exchange.Statuses
import EdgeCache.Proofs.Exchange.Indicators
import EdgeCache.Proofs.Exchange.Separation
import EdgeCache.Proofs.Exchange.Accounting
import EdgeCache.Proofs.Variant.QueryBytes
import EdgeCache.Proofs.Store.Reference
import EdgeCache.Proofs.Store.Replacements
import EdgeCache.Proofs.Store.Slots
import EdgeCache.Proofs.Log.Disturbances
import EdgeCache.Proofs.Delivery.Refinement
import EdgeCache.Proofs.Exchange.Sinks
import EdgeCache.Proofs.Exchange.Errors
import EdgeCache.Proofs.Origin.Stripping
import EdgeCache.Proofs.Origin.Targets
import EdgeCache.Proofs.Origin.Confinement
import EdgeCache.Proofs.Serving.Limits
import EdgeCache.Proofs.Log.Documents
