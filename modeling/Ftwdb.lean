import Ftwdb.Storage.Durability
import Ftwdb.Storage.ScanModes
import Ftwdb.Storage.CommitIdReuse
import Ftwdb.Storage.CatalogHistory
import Ftwdb.Shadow.Stream
import Ftwdb.Shadow.Budget
import Ftwdb.Store.Fallback
import Ftwdb.Store.Maintain
import Ftwdb.Store.History
import Ftwdb.Store.Coarsening
import Ftwdb.Store.Locality
import Ftwdb.Store.Calendar
import Ftwdb.Store.Retention
import Ftwdb.Store.Aggregate
import Ftwdb.Store.Sealing
import Ftwdb.Model.CatalogSnapshot
import Ftwdb.Shadow.TransactionCodec
import Ftwdb.Storage.VisitHistory
import Ftwdb.Store.RollupRoundTrip
import Ftwdb.Store.TimeAlignment
import Ftwdb.Store.LostManifest
import Ftwdb.Storage.ReceiptTables
import Ftwdb.Storage.VarintCursor
import Ftwdb.Storage.CatalogPaths
import Ftwdb.Bench.PowerLoss
