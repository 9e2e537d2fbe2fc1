import Sparkz.Lib.LinkedMap
import Sparkz.Lib.GuardedRun
import Sparkz.Lib.SortedMap
import Sparkz.Lib.StatePrograms
import Sparkz.Network.DeliveryTracker
import Sparkz.Network.PeerQuota
import Sparkz.Network.TrackerStatus
import Sparkz.Network.NodeViewSynchronizer
import Sparkz.Network.SynchronizerCalls
import Sparkz.Network.RequestBound
import Sparkz.NodeView.Holder
import Sparkz.NodeView.UpdateState
import Sparkz.NodeView.Reports
import Sparkz.NodeView.ModifiersCache
import Sparkz.NodeView.RemoteModifiers
import Sparkz.NodeView.ArrivalOrder
import Sparkz.Lib.LeafTree
import Sparkz.Lib.LeafTreeBalance
import Sparkz.Lib.LeafTreePruning
import Sparkz.Lib.LeafTreeTags
import Sparkz.Lib.Bytes
import Sparkz.Avl.Operation
import Sparkz.Avl.BatchNode
import Sparkz.Avl.AuthenticatedTreeOps
import Sparkz.Avl.BatchAVLProver
import Sparkz.Avl.BatchAVLVerifier
import Sparkz.Avl.Represent
import Sparkz.Avl.NodeSpecs
import Sparkz.Avl.Rebalance
import Sparkz.Avl.Modify
import Sparkz.Avl.Delete
import Sparkz.Avl.Perform
import Sparkz.Network.DeliveryTimers
import Sparkz.Lib.Framing
import Sparkz.Serialization.VLQ
import Sparkz.Network.MessageSerializer
import Sparkz.Network.PeerSpec
import Sparkz.Network.PeerConnectionHandler
import Sparkz.Network.MessageStream
import Sparkz.Network.HandshakeStream
import Sparkz.Network.NetworkController
import Sparkz.Network.ConnectionLimits
import Sparkz.Network.PeerAddresses
import Sparkz.Network.PendingDials
import Sparkz.Network.ConnectionTable
import Sparkz.Network.OutgoingWrites
import Sparkz.Lib.LeafTreeSearch
import Sparkz.Lib.Alike
import Sparkz.Lib.Fallible
import Sparkz.Lib.CounterMachine
import Sparkz.Serialization.TypedValues
import Sparkz.Serialization.VLQSource
import Sparkz.Serialization.Readers
import Sparkz.Network.ModifiersSpec
import Sparkz.State.BoxMinimalState
import Sparkz.Network.PeerBucketStorage
import Sparkz.Network.PeerDatabase
import Sparkz.Network.SyncTracker
import Sparkz.Network.PeerSync
import Sparkz.Network.RequestTracker
import Sparkz.Network.PeerEvents
import Sparkz.Network.HandshakeRoundTrip
import Sparkz.Avl.ProverPath
import Sparkz.Avl.Messages
import Sparkz.Avl.Labels
import Sparkz.Avl.ProverRun
import Sparkz.Merkle.MerkleTree
import Sparkz.Merkle.ProofByIndex
import Sparkz.Merkle.BatchMerkleProof
import Sparkz.Merkle.BatchForgery
import Sparkz.Merkle.SparseMerkleTree
import Sparkz.Merkle.SparseSoundness
import Sparkz.Merkle.SparseLastProof
import Sparkz.Legacy.AVLTree
import Sparkz.Legacy.AVLModifyProof
import Sparkz.Legacy.Simulation
import Sparkz.Legacy.Run
import Sparkz.Legacy.Agreement
import Sparkz.Legacy.Verification
import Sparkz.Legacy.Completeness
import Sparkz.Legacy.Soundness
import Sparkz.Lib.LeafTreeLevels
import Sparkz.Legacy.Treap
import Sparkz.Legacy.TreapRun
import Sparkz.Legacy.TreapCompleteness
import Sparkz.Legacy.TreapHistory
import Sparkz.Avl.Serialization
import Sparkz.Avl.SnapshotAuthenticity
import Sparkz.Avl.SnapshotCodec
import Sparkz.Avl.Slicing
import Sparkz.Avl.ProofParsing
import Sparkz.Avl.ProverCalls
import Sparkz.Avl.FailedOperations
import Sparkz.Lib.Records
import Sparkz.Merkle.BatchCompleteness
import Sparkz.Merkle.BatchDecision
import Sparkz.Merkle.SparseUpdate
import Sparkz.Network.BucketCoordinates
import Sparkz.Network.ModifiersLimit
import Sparkz.Network.PeerPenalties
import Sparkz.Avl.ProofGeneration
import Sparkz.Avl.TreeChecks
import Sparkz.Avl.ProverHistory
import Sparkz.Avl.ProverMap
import Sparkz.Avl.ProofReading
import Sparkz.Avl.VerifierPath
import Sparkz.Avl.VerifierRun
import Sparkz.Avl.Completeness
import Sparkz.Lib.LeafTreeVisits
import Sparkz.Avl.NodeLimit
import Sparkz.Avl.ProofReconstruction
import Sparkz.Avl.Soundness
import Sparkz.Avl.LabelCaching
import Sparkz.Avl.Speculation
import Sparkz.Lib.Replies
import Sparkz.Avl.Onward
import Sparkz.Avl.LightClient
import Sparkz.Avl.PersistentProver
import Sparkz.NodeView.CacheEviction
import Sparkz.NodeView.QueueBound
import Sparkz.NodeView.ViewChanges
import Sparkz.NodeView.MemPool
import Sparkz.NodeView.ModifierFates
import Sparkz.Validation.ModifierValidator
import Sparkz.Network.PeerBackup
import Sparkz.Network.PeerSelection
import Sparkz.Network.ReceivedModifiers
import Sparkz.Network.NodeAssembly
import Sparkz.Network.InvSpec
import Sparkz.Network.Responses
import Sparkz.Network.Exchange
import Sparkz.Network.HonestPeers
import Sparkz.Network.PeerManager
import Sparkz.Network.Bans
import Sparkz.Serialization.Ranges
import Sparkz.Lib.Radix
import Sparkz.Encode.BytesEncoder
import Sparkz.Encode.Base58
import Sparkz.Encode.Base16
import Sparkz.Encode.ModifierId
import Sparkz.Encode.PublicKey25519Proposition
import Sparkz.Legacy.ProofCodec
import Sparkz.Network.PeersSpec
