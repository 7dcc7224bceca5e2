import Mnn.Converter.DeadShapeOps
import Mnn.Converter.ExternalLoading
import Mnn.Converter.MoveUnary
import Mnn.Converter.ReIndexTensor
import Mnn.Converter.WeightBlocks
import Mnn.Core.ConvInt8Exact
import Mnn.Core.DeferAlignment
import Mnn.Core.EagerSoundness
import Mnn.Core.FuseCompute
import Mnn.Core.PipelineLifetimes
import Mnn.Core.QuantBitsExact
import Mnn.Core.RasterLowering
import Mnn.Core.Schedule
import Mnn.Core.SingleBuffer
import Mnn.Cpu.KVPrefixLayouts
import Mnn.Cpu.RasterThreads
import Mnn.Cpu.ReduceBlit
import Mnn.Cpu.TurboQuant
import Mnn.Express.SaveRoundTrip
import Mnn.Express.WhileModule
import Mnn.Geometry.BatchMatMul
import Mnn.Geometry.BroadcastDims
import Mnn.Geometry.ConstantTensors
import Mnn.Geometry.DepthToSpace
import Mnn.Geometry.Gather
import Mnn.Geometry.Im2Col3d
import Mnn.Geometry.PadExact
import Mnn.Geometry.Permute
import Mnn.Geometry.Tile
import Mnn.Llm.AddedUnits
import Mnn.Llm.ChunkedPrefill
import Mnn.Llm.CompressorGreedy
import Mnn.Llm.CompressorResult
import Mnn.Llm.DFlash
import Mnn.Llm.HuggingfaceBpe
import Mnn.Llm.JinjaIdle
import Mnn.Llm.JinjaLoops
import Mnn.Llm.Lookahead
import Mnn.Llm.MtokRoundTrip
import Mnn.Llm.MtpGeneration
import Mnn.Llm.PromptCacheTurns
import Mnn.Llm.RegexWays
import Mnn.Llm.Sampler
import Mnn.Llm.SentencepieceInverse
import Mnn.Llm.SpecialAgreement
import Mnn.Llm.Tiktoken
import Mnn.Llm.TokenTreeDraft
import Mnn.Llm.UjsonReading
import Mnn.Math.WinogradExact
