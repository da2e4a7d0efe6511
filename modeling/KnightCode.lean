import KnightCode.Library.Assoc
import KnightCode.Library.JsonText
import KnightCode.Library.Lru
import KnightCode.Library.System
import KnightCode.Delta.CodecRoundTrip
import KnightCode.Delta.DiffExact
import KnightCode.Delta.PendingRuns
import KnightCode.Delta.TrackerAdoption
import KnightCode.Delta.ArrayPlanExact
import KnightCode.Delta.ArrayOverlayRuns
import KnightCode.Durable.TranscriptRuns
import KnightCode.Durable.CachedStorageRuns
import KnightCode.Durable.WriterDelivery
import KnightCode.Durable.InboxRuns
import KnightCode.Watch.NativeRuns
import KnightCode.Watch.WatchDelivery
import KnightCode.Remote.ProviderRuns
import KnightCode.Sync.SyncSafety
import KnightCode.Sync.Loss
import KnightCode.Remote.NamingRuns
import KnightCode.Remote.CallRuns
import KnightCode.Session.LockRuns
import KnightCode.Session.ManagerRuns
import KnightCode.Durable.Compaction
import KnightCode.Store.OverlayAgreement
import KnightCode.Store.MigrationRuns
import KnightCode.Sync.FlushScheduler
import KnightCode.Delta.WireDecoder
import KnightCode.Durable.MemoryEntriesPages
import KnightCode.Session.ConversationTailsRuns
import KnightCode.Durable.MemoryDocumentReads
import KnightCode.Delta.HeapTrusted
import KnightCode.Session.CompactionOrphans
import KnightCode.Output.AccumulatorRuns
import KnightCode.Output.ReadPages
import KnightCode.Files.MutationQueueRuns
import KnightCode.Output.BoundedStream
import KnightCode.Editor.WordWrap
import KnightCode.Editor.EditingLaws
import KnightCode.Editor.PasteMarkers
