import Pgvs3.Verification.Multipart.Complete
import Pgvs3.Verification.Multipart.WriteThenRead
import Pgvs3.Verification.Multipart.Acknowledged
import Pgvs3.Verification.Multipart.Expiry
import Pgvs3.Verification.Read.OneVersion
import Pgvs3.Verification.Read.StaleCache
import Pgvs3.Verification.Read.OwnWrites
import Pgvs3.Verification.Store.Readable
import Pgvs3.Verification.Listing.Lossless
import Pgvs3.Verification.Listing.Distinct
import Pgvs3.Verification.Listing.Specification
import Pgvs3.Verification.Pool.Budget
import Pgvs3.Verification.Ingest.Cancellation
import Pgvs3.Verification.Concurrency.Interleaving
import Pgvs3.Verification.Read.Ranges
import Pgvs3.Verification.Read.RowNumbers
import Pgvs3.Verification.Read.Delivery
import Pgvs3.Verification.Concurrency.BucketRaces
import Pgvs3.Verification.Concurrency.Files
import Pgvs3.Verification.Concurrency.Deadlock
import Pgvs3.Verification.Concurrency.Serializable
import Pgvs3.Verification.Concurrency.Preconditions
import Pgvs3.Verification.Cache.Fifo
import Pgvs3.Verification.Multipart.Acceptance
import Pgvs3.Verification.Multipart.Backlog
import Pgvs3.Verification.Refinement.Durable
import Pgvs3.Verification.Pipeline.Delivered
import Pgvs3.Verification.Layout.Fresh
import Pgvs3.Verification.Concurrency.Draining
import Pgvs3.Verification.Ingest.Completion
import Pgvs3.Verification.Listing.Changing
import Pgvs3.Verification.Pool.Settles
