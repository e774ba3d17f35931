import VStorage.LogField
import VStorage.SecretSharing
import VStorage.Py
import VStorage.GF256
import VStorage.Shamir
import VStorage.ShamirIndices
import VStorage.ShamirSecrecy
import VStorage.Buffer
import VStorage.Primitives
import VStorage.SplitKeyGuard
import VStorage.ChunkPool
import VStorage.Runs
import VStorage.ChunkedSecureBox
import VStorage.TwoGenerations
import VStorage.WrappedFile
import VStorage.TrustGroup
import VStorage.DistributedTrustGroup
import VStorage.Json
import VStorage.NetworkTrustGroup
import VStorage.FetchTolerance
import VStorage.HolderLoss
import VStorage.FallScheduler
import VStorage.CompromiseReports
import VStorage.SpliceMove
import VStorage.WatchdogSweep
import VStorage.WorkerPool
import VStorage.CleanStop
import VStorage.HolderServer
import VStorage.KeyRelease
import VStorage.Symbolic
import VStorage.KeyPrediction
import VStorage.ProcessWatchdog
import VStorage.GuardCoverage
import VStorage.Dict
import VStorage.FallingBox
import VStorage.PackedBox
import VStorage.VirtualStorage
import VStorage.SecretsStore
import VStorage.SecretsOwnership
import VStorage.PoolFairness
import VStorage.PoolPacking
import VStorage.RotationSchedule
import VStorage.RotationFailure
import VStorage.RegionTable
import VStorage.RetrievalPause
import VStorage.RetrievalRace
import VStorage.SaveFailure
import VStorage.ReplicatedSecretsStore
import VStorage.Ownership
import VStorage.OrphanedSecrets
import VStorage.LockOrder
import VStorage.LockDiscipline
import VStorage.AuthenticatedServing
import VStorage.SplitKeyUpdates
import VStorage.PackedRemoval
import VStorage.PackedFailure
import VStorage.Splitter
import VStorage.PackedSaves
import VStorage.FileSaves
import VStorage.TokenExceptions
import VStorage.StartUp
import VStorage.Returns
import VStorage.UntrustedShares
import VStorage.MisbehavingHolders
import VStorage.HandOff
import VStorage.CorruptedShares
import VStorage.Traced
import VStorage.TableAccesses
import VStorage.KeyExposure
import VStorage.KeyedStore
import VStorage.SecureFiles
import VStorage.SecureBoxes
import VStorage.SecureTable
import VStorage.SecureRetrieval
import VStorage.SecureDeath
import VStorage.PackedTables
import VStorage.PackedFiles
import VStorage.PlainFiles
import VStorage.Interchange
import VStorage.HolderWire
