import LightKV.ExecutionProofs
import LightKV.LittleEndianProofs
import LightKV.PackedProofs
import LightKV.CrcProofs
import LightKV.BitSpreadProofs
import LightKV.IntervalsProofs
import LightKV.SubdivisionProofs
import LightKV.CutsProofs
import LightKV.LowerBoundProofs
import LightKV.KvBytesProofs
import LightKV.KvSpatialProofs
import LightKV.KvMergeRangesProofs
import LightKV.KvOctreeProofs
import LightKV.KvMortonProofs
import LightKV.KvRangeEndsProofs
import LightKV.ChainProofs
import LightKV.OverlayProofs
import LightKV.KvSkipListProofs
import LightKV.KvSkipListMapProofs
import LightKV.KvSkipListMemoryProofs
import LightKV.KWayMergeProofs
import LightKV.PositionalProofs
import LightKV.KvDirectoryProofs
import LightKV.KvWalProofs
import LightKV.KvWalGrammarProofs
import LightKV.KvWalDamageProofs
import LightKV.KvIteratorProofs
import LightKV.KvMergingProofs
import LightKV.KvTableProofs
import LightKV.KvTableIteratorProofs
import LightKV.KvBlocksProofs
import LightKV.KvMalformedProofs
import LightKV.KvEngineProofs
import LightKV.KvMemtableIteratorProofs
import LightKV.KvStoreProofs
import LightKV.KvLongKeyProofs
import LightKV.KvCompactionProofs
import LightKV.KvRecoveryProofs
import LightKV.KvStartupProofs
import LightKV.KvSessionProofs
import LightKV.KvAppendFailureProofs
import LightKV.KvScanProofs
import LightKV.KvRecencyProofs
import LightKV.KvSpatialKeyProofs
import LightKV.KvVoxelProofs
import LightKV.KvShardingProofs
import LightKV.KvRoutingProofs
import LightKV.KvShardRangesProofs
import LightKV.KvRangeQueryProofs
import LightKV.KvBoxQueryProofs
import LightKV.KvInterleavingProofs
import LightKV.KvCurrentReadsProofs
import LightKV.KvScansInFlightProofs
import LightKV.KvSchedulerProofs
import LightKV.KvQueryInFlightProofs
import LightKV.KvVoxelMapProofs
import LightKV.KvTableOrderProofs
import LightKV.KvDiskFilesProofs
import LightKV.KvDiskOrderProofs
import LightKV.KvFilesProofs
import LightKV.KvLogsProofs
import LightKV.KvReopenProofs
import LightKV.KvFlushCrashProofs
import LightKV.KvCompactCrashProofs
import LightKV.KvMishapProofs
import LightKV.KvShardSessionsProofs
import LightKV.KvCrashInFlightProofs
import LightKV.KvLostTablesProofs
import LightKV.KvNumberingProofs
import LightKV.KvFlushFailureProofs
import LightKV.KvMemtableBoundProofs
import LightKV.KvTableBoundProofs
import LightKV.KvSettlingProofs
import LightKV.KvReadFailureProofs
import LightKV.KvStaleReadProofs
import LightKV.KvShortReadProofs
import LightKV.KvGarbageProofs
