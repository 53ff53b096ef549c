import Etherview.IntervalSet
import Etherview.Transact
import Etherview.MapUpdate
import Etherview.StoreTypes
import Etherview.StoreCoverage
import Etherview.StoreRepository
import Etherview.StoreMemory
import Etherview.StoreMemorySpec
import Etherview.StoreCalls
import Etherview.StoreInvariant
import Etherview.StoreRebase
import Etherview.StoreBatch
import Etherview.StorePartition
import Etherview.StoreBoundary
import Etherview.StoreFinality
import Etherview.StoreTransitions
import Etherview.StoreLease
import Etherview.StoreLeaseRuns
import Etherview.Interaction
import Etherview.IndexerCanonicalizer
import Etherview.IndexerReads
import Etherview.IndexerApply
import Etherview.IndexerLane
import Etherview.IndexerInvariant
import Etherview.IndexerSafe
import Etherview.IndexerJournals
import Etherview.IndexerOutcome
import Etherview.IndexerEffect
import Etherview.IndexerAncestry
import Etherview.SyncerLive
import Etherview.SyncerBackfill
import Etherview.SyncerGaps
import Etherview.IndexerRuns
import Etherview.Hex
import Etherview.EnrichStateDiff
import Etherview.EnrichAuthorizations
import Etherview.RoseTree
import Etherview.EnrichTrace
import Etherview.EnrichTraceNested
import Etherview.EnrichTraceFlat
import Etherview.EnrichTraceAgree
import Etherview.Relational
import Etherview.Paging
import Etherview.EventsRelay
import Etherview.EventsDelivery
import Etherview.FacilitatorJournal
import Etherview.FacilitatorService
import Etherview.FacilitatorInvariant
import Etherview.FacilitatorRuns
import Etherview.FacilitatorOutcomes
import Etherview.FacilitatorDecode
import Etherview.FacilitatorDiscipline
import Etherview.GoMap
import Etherview.Patch
import Etherview.VerifyRanges
import Etherview.VerifyTransform
import Etherview.VerifyMatching
import Etherview.VerifyReplay
import Etherview.VerifyFooter
import Etherview.Texts
import Etherview.VerifyAuxdata
import Etherview.Slices
import Etherview.VerifyCandidates
import Etherview.VerifyRanking
import Etherview.VerifyMatcher
import Etherview.Evm
import Etherview.VerifyYul
import Etherview.Json
import Etherview.VerifyVyper
import Etherview.VerifyVyperLayout
import Etherview.AbiBounds
import Etherview.VerifyCwiaAst
import Etherview.VerifyCwiaConstant
import Etherview.CwiaArgs
import Etherview.VerifyCwiaReach
import Etherview.UserOperation
