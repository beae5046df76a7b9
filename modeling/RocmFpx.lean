import RocmFpx.KvCellsInvariant
import RocmFpx.KvShift
import RocmFpx.KvWindow
import RocmFpx.KqMask
import RocmFpx.Fp2Agreement
import RocmFpx.DraftSelection
import RocmFpx.MoeCacheRuns
import RocmFpx.GrammarGrowth
import RocmFpx.DynTallocrRuns
import RocmFpx.ServerQueueCancel
import RocmFpx.PegPrefix
import RocmFpx.PromptCacheLoads
import RocmFpx.ServerSleep
import RocmFpx.DetokenizeText
import RocmFpx.ServerResponse
import RocmFpx.RpcGraphCache
import RocmFpx.SchedRing
import RocmFpx.Penalties
import RocmFpx.RejectionSamplerRuns
import RocmFpx.Plamo2Optimal
import RocmFpx.RpcGraphTrip
import RocmFpx.KvFindSlot
import RocmFpx.GrammarPartialChar
import RocmFpx.FpxSaturation
import RocmFpx.BatchTail
import RocmFpx.Fp4Dot
import RocmFpx.Gallocr
import RocmFpx.GgufReader
import RocmFpx.ReasoningBudgetEnd
import RocmFpx.Dsv4InitBatch
import RocmFpx.NgramCache
import RocmFpx.NgramMapStats
import RocmFpx.GbnfLiteral
import RocmFpx.AloraScan
import RocmFpx.ServerTokensPositions
import RocmFpx.RwkvTokenizer
import RocmFpx.UgmNormalizer
import RocmFpx.DigitGroups
import RocmFpx.DryRepeat
import RocmFpx.SpecialPartition
import RocmFpx.StopStrings
import RocmFpx.KimiPattern
import RocmFpx.RecurrentRemoval
import RocmFpx.DraftVerification
import RocmFpx.JinjaString
import RocmFpx.BucketSort
import RocmFpx.JinjaArithmetic
import RocmFpx.JinjaFor
import RocmFpx.SchemaTypes
