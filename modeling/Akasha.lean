import Akasha.Api.MetadataSlots
import Akasha.Api.Scanner
import Akasha.Distributed.Export
import Akasha.Distributed.JournalFailure
import Akasha.Distributed.PublishedRun
import Akasha.Distributed.Rejection
import Akasha.Distributed.Search
import Akasha.Distributed.Snapshot
import Akasha.Distributed.Visibility
import Akasha.Document.PointRecord
import Akasha.Index.HnswAudit
import Akasha.Index.HnswDescent
import Akasha.Index.HnswLayer
import Akasha.Index.HnswLevel
import Akasha.Index.HnswOverlay
import Akasha.Index.HnswRun
import Akasha.Index.HnswSelection
import Akasha.Index.SparseRun
import Akasha.Query.CachedIndex
import Akasha.Query.SparseSearch
import Akasha.Storage.Checkpoint
import Akasha.Storage.ChecksumBlocks
import Akasha.Storage.FieldCatalogCodec
import Akasha.Storage.HnswJobName
import Akasha.Storage.LiveFiles
import Akasha.Storage.MaintenanceWorker
import Akasha.Storage.ManifestCodec
import Akasha.Storage.MemTableRecovery
import Akasha.Storage.PointReplay
import Akasha.Storage.SparseLog
import Akasha.Storage.SparseStore
import Akasha.Storage.StoreRuns
import Akasha.Storage.WalReader
