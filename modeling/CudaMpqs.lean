import CudaMpqs.Cluster.NoLostChunk
import CudaMpqs.Cluster.CheckpointSafety
import CudaMpqs.Largeprimes.SlabDispatch
import CudaMpqs.Matrix.Preprocess
import CudaMpqs.Sieve.NarrowAccumulator
import CudaMpqs.Lingen.GeneratorInvariant
import CudaMpqs.Lingen.KrylovSequence
import CudaMpqs.Lingen.Unpermutation
import CudaMpqs.Lingen.ResumeSafety
import CudaMpqs.Matrix.Truncation
import CudaMpqs.Cluster.SharedSocket
import CudaMpqs.Common.CheckpointFallback
import CudaMpqs.Common.CheckpointCommit
import CudaMpqs.Matrix.PackedCongruence
import CudaMpqs.Sieve.AFactorBounds
import CudaMpqs.Sieve.SmallPrimeMask
import CudaMpqs.Sieve.FactorBase
import CudaMpqs.Lingen.Karatsuba
import CudaMpqs.Lingen.BasisInsertion
import CudaMpqs.Cluster.SpscRing
import CudaMpqs.Cluster.RelationDedup
import CudaMpqs.Cluster.MergeBatches
import CudaMpqs.Postprocessing.RelationBatchAppend
import CudaMpqs.Lingen.CheckpointLoads
import CudaMpqs.Cluster.FlushAgreement
import CudaMpqs.Postprocessing.CandidateValue
import CudaMpqs.Cluster.ChunkRecall
import CudaMpqs.Matrix.CharacterColumns
import CudaMpqs.Lingen.InitGenerator
import CudaMpqs.Common.UInt512Inverse
import CudaMpqs.Common.UInt512Decimal
import CudaMpqs.Largeprimes.ReserveDual
import CudaMpqs.Matrix.SingletonFixpoint
import CudaMpqs.Matrix.WeightTwo
import CudaMpqs.Cluster.ChunkSizes
import CudaMpqs.Spmm.TunedPlan
import CudaMpqs.Sqrt.ExpandedSolutions
import CudaMpqs.Spmm.Delta16
