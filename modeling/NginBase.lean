import NginBase.Async.CancellationLaws
import NginBase.Async.FrameLifetime
import NginBase.Async.OperationAwait
import NginBase.Async.Suspension
import NginBase.Async.TaskTreeLaws
import NginBase.Async.WhenAny
import NginBase.Containers.ConcurrentSafety
import NginBase.Containers.FlatHashMapRuns
import NginBase.Containers.ThrowingRuns
import NginBase.Containers.VectorRuns
import NginBase.Crypto.CertificateLaws
import NginBase.Crypto.JwtLaws
import NginBase.Crypto.PasetoPublic
import NginBase.Crypto.PemLaws
import NginBase.Execution.CooperativeScheduler
import NginBase.Execution.JobPoolLaws
import NginBase.Execution.ThreadPoolLaws
import NginBase.Hashing.CRCEngines
import NginBase.Hashing.CheckDigits
import NginBase.Hashing.ChecksumLaws
import NginBase.IO.CopyCycles
import NginBase.IO.DirectoryHandles
import NginBase.IO.MountTable
import NginBase.IO.MovedFiles
import NginBase.IO.PathNames
import NginBase.IO.ReadOnlySessions
import NginBase.IO.WholeFiles
import NginBase.Json.DuplicateErrors
import NginBase.Json.EventSpans
import NginBase.Math.BigIntRuns
import NginBase.Memory.AllocationHelpers
import NginBase.Memory.EpochReclaimer
import NginBase.Memory.LinearAllocator
import NginBase.Memory.PoolMoves
import NginBase.Memory.SmartPointerCounts
import NginBase.Net.Endpoint
import NginBase.Net.MessageStreamLaws
import NginBase.Serialization.Incremental
import NginBase.Sync.TicketLock
import NginBase.Text.BasicStringRuns
import NginBase.Text.BasicStringSearchLaws
import NginBase.Text.LossyDecoding
import NginBase.Utilities.StringInternerRuns
import NginBase.Utilities.StringLengths
import NginBase.Xml.BuilderForest
import NginBase.Xml.DocumentTables
import NginBase.Xml.PrettyPrinting
import NginBase.Xml.StreamContent
import NginBase.Xml.SyntaxTiling
