import Jitq.CodeGen.LlvmFunctor
import Jitq.CodeGen.PlanLiteral
import Jitq.Dag.GraphPredicates
import Jitq.Dag.TypeRegistry
import Jitq.Llvm.AdjustSignature
import Jitq.Operators.Distribution
import Jitq.Operators.NestedMap
import Jitq.Operators.Partition
import Jitq.Operators.ReduceByIndex
import Jitq.Operators.Reopen
import Jitq.Operators.SplitData
import Jitq.Operators.TopK
import Jitq.Optimize.ContainerRuns
import Jitq.Optimize.GroupedReduceByKey
import Jitq.Optimize.JoinChains
import Jitq.Optimize.MergeRuns
import Jitq.Optimize.SingleInout
import Jitq.Optimize.TypeInference
import Jitq.Optimize.Verify
import Jitq.Python.PlanCache
import Jitq.Python.Workers
import Jitq.Runtime.ExchangeS3
import Jitq.Runtime.ExchangeTcp
import Jitq.Runtime.ParquetSlices
import Jitq.Runtime.RecordBatch
import Jitq.Runtime.SharedPointer
