import Dtmpfs.Id
import Dtmpfs.Error
import Dtmpfs.Hash
import Dtmpfs.Semantics.OrderedMap
import Dtmpfs.MetaService
import Dtmpfs.NamespaceView
import Dtmpfs.MetaCases
import Dtmpfs.NamespaceIntegrity
import Dtmpfs.NamespaceTree
import Dtmpfs.OpenFile
import Dtmpfs.Cluster
import Dtmpfs.FileRecord
import Dtmpfs.Allocation
import Dtmpfs.ClusterCases
import Dtmpfs.Coherence
import Dtmpfs.CoherenceSteps
import Dtmpfs.CoherencePublish
import Dtmpfs.Visibility
import Dtmpfs.Generations
import Dtmpfs.FreshNumbers
import Dtmpfs.StickyPlacement
import Dtmpfs.StoreRace
import Dtmpfs.StoreMarks
import Dtmpfs.DirectoryPages
import Dtmpfs.DirectoryIteration
import Dtmpfs.OneVersion
import Dtmpfs.Truncation
import Dtmpfs.LateDeletes
import Dtmpfs.Replicas
import Dtmpfs.PublishedReads
import Dtmpfs.Republishing
import Dtmpfs.Attributes
import Dtmpfs.LinkCounts
import Dtmpfs.HandleLifetimes
import Dtmpfs.HandleNumbers
import Dtmpfs.HandleContent
import Dtmpfs.PublishCall
import Dtmpfs.PublishOrder
import Dtmpfs.FailedPublish
import Dtmpfs.HandleLeaks
import Dtmpfs.AttrCache
import Dtmpfs.StoreRouting
import Dtmpfs.ChannelReads
import Dtmpfs.PlacedBlocks
import Dtmpfs.NodeRanking
import Dtmpfs.RenameEffects
import Dtmpfs.FailedWrite
import Dtmpfs.ResizedBlocks
import Dtmpfs.TruncatedBytes
import Dtmpfs.ValidPlacements
import Dtmpfs.Reclamation
import Dtmpfs.Timestamps
import Dtmpfs.BlockRanges
import Dtmpfs.Unwraps
import Dtmpfs.Errnos
import Dtmpfs.FileNames
import Dtmpfs.Semantics.Origins
import Dtmpfs.ByteOrigins
import Dtmpfs.Semantics.Measured
import Dtmpfs.PublishEnds
import Dtmpfs.OrphanBlocks
import Dtmpfs.Semantics.Simulation
import Dtmpfs.ClusterFrame
import Dtmpfs.PublishRefinement
import Dtmpfs.Membership
import Dtmpfs.Heartbeats
import Dtmpfs.FsyncDurability
import Dtmpfs.AttrStaleness
import Dtmpfs.Semantics.Walks
import Dtmpfs.PathRefinement
import Dtmpfs.StoreLedger
import Dtmpfs.ToldAttributes
import Dtmpfs.ReadInfluence
import Dtmpfs.DirectoryEnds
